import Mathlib.Data.List.Rotate

/-!
# Lib — Cyclic

A search through the slots below `n` in cyclic order, and what searches in a row find, each begun
after the slot that the one before it found: the slots that satisfy the predicate, in turn
(`search_eq`, `turn_succ`).
-/

namespace ZeptoOS.Lib

/-- The first of `k` slots from `start` on, modulo `n`, that satisfies `p`. -/
def search (p : ℕ → Bool) (n : ℕ) : ℕ → ℕ → Option ℕ
  | 0, _ => none
  | k + 1, start => if p (start % n) then some (start % n) else search p n k (start % n + 1)

/-- The slots that satisfy `p`, in cyclic order from `start` on. -/
def turn (p : ℕ → Bool) (n start : ℕ) : List ℕ := ((List.range n).rotate start).filter p

variable {p : ℕ → Bool} {n s : ℕ}

theorem rotate_range (hn : 0 < n) (s : ℕ) : ∃ l, (List.range n).rotate s = s % n :: l ∧
    (List.range n).rotate (s % n + 1) = l ++ [s % n] := by
  have hlt := Nat.mod_lt s hn
  have hrotate : (List.range n).rotate (s % n) = (List.range n).rotate s := by
    simpa using (List.range n).rotate_mod s
  cases h : (List.range n).rotate s with
  | nil =>
      have hlen := congrArg List.length h
      rw [List.length_rotate, List.length_range, List.length_nil] at hlen
      omega
  | cons a l =>
      have hhead : ((List.range n).rotate (s % n)).head? = some (s % n) := by
        rw [List.head?_rotate (by rwa [List.length_range]), List.getElem?_range hlt]
      rw [hrotate, h] at hhead
      obtain rfl : a = s % n := Option.some.inj hhead
      refine ⟨l, rfl, ?_⟩
      rw [← List.rotate_rotate, hrotate, h, List.rotate_cons_succ, List.rotate_zero]

theorem search_find {k : ℕ} (hk : k ≤ n) :
    search p n k s = (((List.range n).rotate s).take k).find? p := by
  induction k generalizing s with
  | zero => rfl
  | succ k ih =>
      obtain ⟨l, hs, hsucc⟩ := rotate_range (Nat.lt_of_lt_of_le (Nat.succ_pos k) hk) s
      have hlen : k ≤ l.length := by
        have hlen := congrArg List.length hs
        rw [List.length_rotate, List.length_range, List.length_cons] at hlen
        omega
      rw [search, ih (by omega), hs, hsucc, List.take_succ_cons, List.find?_cons,
        List.take_append_of_le_length hlen]
      cases p (s % n) <;> rfl

/-- **What a search finds** is the first slot in turn. -/
theorem search_eq : search p n n s = (turn p n s).head? := by
  have htake : ((List.range n).rotate s).take n = (List.range n).rotate s :=
    List.take_of_length_le (by simp)
  rw [search_find le_rfl, htake, turn, List.head?_filter]

/-- **The next turn.**  After the first slot in turn, that one comes last. -/
theorem turn_succ {t : ℕ} {rest : List ℕ} (h : turn p n s = t :: rest) :
    turn p n (t + 1) = rest ++ [t] := by
  obtain ⟨as, bs, hsplit, has, ht, rfl⟩ := List.filter_eq_cons_iff.mp h
  have hn : as.length < n := by
    have hlen := congrArg List.length hsplit
    simp only [List.length_rotate, List.length_range, List.length_append, List.length_cons] at hlen
    omega
  have hslot : (as.length + s) % n = t := by
    have hget : ((List.range n).rotate s)[as.length]? = some t := by
      rw [hsplit, List.getElem?_append_right le_rfl, Nat.sub_self, List.getElem?_cons_zero]
    rw [List.getElem?_rotate (by rwa [List.length_range]), List.length_range,
      List.getElem?_range (Nat.mod_lt _ (by omega))] at hget
    exact Option.some.inj hget
  have hrotate : (List.range n).rotate (t + 1) = bs ++ (as ++ [t]) := by
    have hmod : (List.range n).rotate t = (List.range n).rotate (as.length + s) := by
      simpa [hslot] using (List.range n).rotate_mod (as.length + s)
    have happend : as ++ t :: bs = (as ++ [t]) ++ bs := by simp
    rw [← List.rotate_rotate, hmod, Nat.add_comm as.length s, ← List.rotate_rotate,
      List.rotate_rotate, hsplit, happend, ← List.rotate_append_length_eq (as ++ [t]) bs,
      List.length_append, List.length_singleton]
  have hskipped : as.filter p = [] := List.filter_eq_nil_iff.mpr has
  rw [turn, hrotate, List.filter_append, List.filter_append, hskipped, List.nil_append,
    List.filter_cons_of_pos ht, List.filter_nil]

/-- Every slot that satisfies `p` has its turn, once. -/
theorem turn_perm : (turn p n s).Perm ((List.range n).filter p) :=
  (List.rotate_perm _ s).filter p

/-- Slots that do not satisfy `p` may be added at the end. -/
theorem turn_extend {m : ℕ} (hs : s ≤ n) (hnm : n ≤ m) (hp : ∀ i, n ≤ i → i < m → p i = false) :
    turn p m s = turn p n s := by
  obtain ⟨d, rfl⟩ := Nat.exists_eq_add_of_le hnm
  have hnone : ((List.range d).map (n + ·)).filter p = [] := by
    refine List.filter_eq_nil_iff.mpr fun i hi => ?_
    obtain ⟨j, hj, rfl⟩ := List.mem_map.mp hi
    simp [hp (n + j) (Nat.le_add_right n j) (by simpa using hj)]
  have hlen : s ≤ (List.range n).length := by rwa [List.length_range]
  rw [turn, turn, List.range_add, List.rotate_eq_drop_append_take (by simp; omega),
    List.rotate_eq_drop_append_take hlen, List.drop_append_of_le_length hlen,
    List.take_append_of_le_length hlen, List.filter_append, List.filter_append, hnone,
    List.append_nil, List.filter_append]

end ZeptoOS.Lib
