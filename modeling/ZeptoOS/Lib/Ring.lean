import Mathlib.Data.List.Basic
import Mathlib.Logic.Function.Basic

/-!
# Lib — Ring

A queue in an array of `n` slots, which is read at `tail` and written at `head`, both modulo `n`.
One slot is always left free, so that a full array is told apart from an empty one
(`RingHolds.full_iff`, `RingHolds.empty_iff`).
-/

namespace ZeptoOS.Lib

variable {A : Type*}

/-- The slots from `tail` up to `head` hold `items`, in order. -/
structure RingHolds (n : ℕ) (slots : ℕ → A) (head tail : ℕ) (items : List A) : Prop where
  tail_lt : tail < n
  fits : items.length < n
  head_eq : head = (tail + items.length) % n
  slot : ∀ i a, items[i]? = some a → slots ((tail + i) % n) = a

namespace RingHolds

variable {n : ℕ} {slots : ℕ → A} {head tail : ℕ} {items : List A} {a : A}

theorem nil (slots : ℕ → A) (h : tail < n) : RingHolds n slots tail tail [] where
  tail_lt := h
  fits := Nat.zero_lt_of_lt h
  head_eq := (Nat.mod_eq_of_lt h).symm
  slot i a hi := by cases hi

theorem head_lt (h : RingHolds n slots head tail items) : head < n := by
  rw [h.head_eq]
  exact Nat.mod_lt _ (Nat.zero_lt_of_lt h.tail_lt)

/-- Fewer than `n` steps from a slot lead back to it only if there is none. -/
theorem steps_eq_iff {k : ℕ} (ht : tail < n) (hk : k < n) : (tail + k) % n = tail ↔ k = 0 := by
  constructor
  · intro h
    by_cases hwrap : tail + k < n
    · rw [Nat.mod_eq_of_lt hwrap] at h
      omega
    · rw [Nat.mod_eq_sub_mod (by omega), Nat.mod_eq_of_lt (by omega)] at h
      omega
  · rintro rfl
    exact Nat.mod_eq_of_lt ht

theorem empty_iff (h : RingHolds n slots head tail items) : head = tail ↔ items = [] := by
  rw [h.head_eq, steps_eq_iff h.tail_lt h.fits, List.length_eq_zero_iff]

/-- The slot behind `head` is `tail` exactly if all slots but one are taken. -/
theorem full_iff (h : RingHolds n slots head tail items) :
    (head + 1) % n = tail ↔ items.length + 1 = n := by
  rw [h.head_eq, Nat.mod_add_mod, Nat.add_assoc]
  constructor
  · intro hfull
    by_contra hne
    have hlt : items.length + 1 < n := Nat.lt_of_le_of_ne h.fits hne
    exact Nat.succ_ne_zero _ ((steps_eq_iff h.tail_lt hlt).mp hfull)
  · rintro e
    rw [e, Nat.add_mod_right, Nat.mod_eq_of_lt h.tail_lt]

/-- **An element put in at `head`.** -/
theorem push (h : RingHolds n slots head tail items) (hroom : items.length + 1 < n) (a : A) :
    RingHolds n (Function.update slots head a) ((head + 1) % n) tail (items ++ [a]) where
  tail_lt := h.tail_lt
  fits := by rwa [List.length_append, List.length_singleton]
  head_eq := by
    rw [h.head_eq, Nat.mod_add_mod, List.length_append, List.length_singleton, Nat.add_assoc]
  slot i b hi := by
    rw [List.getElem?_append] at hi
    split at hi
    · rename_i hlt
      -- the slots taken are not the one at `head`
      have hne : (tail + i) % n ≠ head := by
        intro e
        have hstep : ((tail + i) % n + (items.length - i)) % n = (tail + i) % n := by
          rw [Nat.mod_add_mod, Nat.add_assoc, Nat.add_sub_cancel' (Nat.le_of_lt hlt),
            ← h.head_eq, e]
        have hslot := Nat.mod_lt (tail + i) (Nat.zero_lt_of_lt h.tail_lt)
        have hzero := (steps_eq_iff hslot (by omega)).mp hstep
        omega
      rw [Function.update_of_ne hne]
      exact h.slot i b hi
    · rename_i hge
      obtain rfl : i = items.length := by
        have hlen := (List.getElem?_eq_some_iff.mp hi).1
        rw [List.length_singleton] at hlen
        omega
      rw [Nat.sub_self] at hi
      rw [← h.head_eq, Function.update_self]
      exact Option.some.inj hi

/-- **The element taken out at `tail`.** -/
theorem pop (h : RingHolds n slots head tail (a :: items)) :
    slots tail = a ∧ RingHolds n slots head ((tail + 1) % n) items := by
  have hlen : (a :: items).length = 1 + items.length := Nat.add_comm _ 1
  constructor
  · have hfirst := h.slot 0 a rfl
    rwa [Nat.add_zero, Nat.mod_eq_of_lt h.tail_lt] at hfirst
  · constructor
    · exact Nat.mod_lt _ (Nat.zero_lt_of_lt h.tail_lt)
    · exact Nat.lt_of_succ_lt h.fits
    · rw [h.head_eq, hlen, Nat.mod_add_mod, Nat.add_assoc]
    · intro i b hi
      rw [Nat.mod_add_mod, Nat.add_assoc, Nat.add_comm 1]
      exact h.slot (i + 1) b hi

end RingHolds

end ZeptoOS.Lib
