import Mathlib.Data.BitVec
import Mathlib.Data.List.Range

/-!
# Lib — PackedBits

A set of numbers packed into bytes, bit `i % 8` of byte `i / 8` standing for `i`: the set and
clear masks, alone and over a range, as updates of the set they stand for.
-/

namespace ZeptoOS.Lib

/-- An array of bytes. -/
abbrev PackedBits := ℕ → BitVec 8

namespace PackedBits

/-- `a[i / 8] & (1U << (i % 8))`, as a truth value. -/
def test (a : PackedBits) (i : ℕ) : Bool :=
  a (i / 8) &&& (1#8 <<< (i % 8)) != 0#8

/-- `a[i / 8] |= 1U << (i % 8)` -/
def set (a : PackedBits) (i : ℕ) : PackedBits := fun k =>
  if k = i / 8 then a (i / 8) ||| (1#8 <<< (i % 8)) else a k

/-- `a[i / 8] &= (uint8_t)~(1U << (i % 8))` -/
def clear (a : PackedBits) (i : ℕ) : PackedBits := fun k =>
  if k = i / 8 then a (i / 8) &&& ~~~(1#8 <<< (i % 8)) else a k

/-- `for (i = lo; i < hi; i++)` with the set macro. -/
def setRange (a : PackedBits) (lo hi : ℕ) : PackedBits :=
  (List.range' lo (hi - lo)).foldl set a

/-- `for (i = lo; i < hi; i++)` with the clear mask. -/
def clearRange (a : PackedBits) (lo hi : ℕ) : PackedBits :=
  (List.range' lo (hi - lo)).foldl clear a

variable {a : PackedBits} {i j lo hi : ℕ}

theorem test_eq (a : PackedBits) (i : ℕ) : a.test i = (a (i / 8)).getLsbD (i % 8) := by
  rw [test, ← BitVec.twoPow_eq, BitVec.and_twoPow]
  have hi : i % 8 < 8 := Nat.mod_lt _ (by decide)
  cases (a (i / 8)).getLsbD (i % 8) with
  | false => rfl
  | true =>
      simp only [if_true, bne_iff_ne, ne_eq]
      intro h
      have := congrArg (fun b : BitVec 8 => b.getLsbD (i % 8)) h
      simp [hi] at this

/-- Two numbers share byte and bit only if they are equal. -/
theorem bit_ne (h : j / 8 = i / 8) : i % 8 = j % 8 ↔ j = i := by omega

@[simp] theorem test_set : (a.set i).test j = (decide (j = i) || a.test j) := by
  have hi : i % 8 < 8 := Nat.mod_lt _ (by decide)
  simp only [test_eq, set]
  by_cases h : j / 8 = i / 8
  · rw [if_pos h, h, ← BitVec.twoPow_eq, BitVec.getLsbD_or, BitVec.getLsbD_twoPow]
    simp [hi, bit_ne h, Bool.or_comm]
  · have : j ≠ i := fun e => h (e ▸ rfl)
    simp [h, this]

@[simp] theorem test_clear : (a.clear i).test j = (!decide (j = i) && a.test j) := by
  have hi : i % 8 < 8 := Nat.mod_lt _ (by decide)
  have hj : j % 8 < 8 := Nat.mod_lt _ (by decide)
  simp only [test_eq, clear]
  by_cases h : j / 8 = i / 8
  · rw [if_pos h, h, ← BitVec.twoPow_eq, BitVec.getLsbD_and, BitVec.getLsbD_not,
      BitVec.getLsbD_twoPow]
    simp [hi, hj, bit_ne h, Bool.and_comm]
  · have : j ≠ i := fun e => h (e ▸ rfl)
    simp [h, this]

@[simp] theorem test_setRange :
    (a.setRange lo hi).test j = (decide (lo ≤ j ∧ j < hi) || a.test j) := by
  have key : ∀ (n lo : ℕ) (a : PackedBits), ((List.range' lo n).foldl set a).test j =
      (decide (lo ≤ j ∧ j < lo + n) || a.test j) := by
    intro n
    induction n with
    | zero => intro lo a; have : ¬ (lo ≤ j ∧ j < lo) := by omega
              simp [this]
    | succ n ih =>
        intro lo a
        rw [List.range'_succ, List.foldl_cons, ih, test_set, ← Bool.or_assoc, ← Bool.decide_or]
        congr 2
        apply propext
        omega
  rw [setRange, key]
  congr 2
  apply propext
  omega

@[simp] theorem test_clearRange :
    (a.clearRange lo hi).test j = (!decide (lo ≤ j ∧ j < hi) && a.test j) := by
  have key : ∀ (n lo : ℕ) (a : PackedBits), ((List.range' lo n).foldl clear a).test j =
      (!decide (lo ≤ j ∧ j < lo + n) && a.test j) := by
    intro n
    induction n with
    | zero => intro lo a; have : ¬ (lo ≤ j ∧ j < lo) := by omega
              simp [this]
    | succ n ih =>
        intro lo a
        rw [List.range'_succ, List.foldl_cons, ih, test_clear, ← Bool.and_assoc, ← Bool.not_or,
          ← Bool.decide_or]
        congr 3
        apply propext
        omega
  rw [clearRange, key]
  congr 3
  apply propext
  omega

end PackedBits

end ZeptoOS.Lib
