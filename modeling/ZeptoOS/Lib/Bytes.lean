import Mathlib.Algebra.Group.Nat.Defs
import Mathlib.Data.List.Basic
import Mathlib.Logic.Function.Basic

/-!
# Lib — Bytes

Byte sequences in a memory.  `Holds mem p bs` says that `bs` lies at `p`, and splits along the
structure of `bs`; `slice` reads a list, `put` stores one, `copy` is the loop that copies a range
into a buffer, and `overwrite` replaces a range.  `encodeLe` and `leAt` write and read little-endian
numbers.
-/

namespace ZeptoOS.Lib

variable {B : Type*}

/-- The bytes `bs` lie at `p`. -/
def Holds (mem : ℕ → B) (p : ℕ) (bs : List B) : Prop :=
  ∀ k b, bs[k]? = some b → mem (p + k) = b

/-- The first `n` bytes from `src` copied to the start of `buffer`, in order. -/
def copy (mem : ℕ → B) (src : ℕ) (buffer : ℕ → B) : ℕ → ℕ → B
  | 0 => buffer
  | n + 1 => Function.update (copy mem src buffer n) n (mem (src + n))

variable {mem : ℕ → B} {p : ℕ}

theorem holds_nil : Holds mem p [] := fun _ _ h => by cases h

theorem holds_cons {b : B} {bs : List B} :
    Holds mem p (b :: bs) ↔ mem p = b ∧ Holds mem (p + 1) bs := by
  constructor
  · intro h
    refine ⟨h 0 b rfl, fun k c hc => ?_⟩
    rw [Nat.add_assoc, Nat.add_comm 1]
    exact h (k + 1) c hc
  · rintro ⟨hb, hbs⟩ k c hc
    cases k with
    | zero => exact hb.trans (Option.some.inj hc)
    | succ k =>
        have hk := hbs k c hc
        rwa [Nat.add_assoc, Nat.add_comm 1] at hk

theorem holds_append {bs cs : List B} :
    Holds mem p (bs ++ cs) ↔ Holds mem p bs ∧ Holds mem (p + bs.length) cs := by
  induction bs generalizing p with
  | nil => exact ⟨fun h => ⟨holds_nil, h⟩, And.right⟩
  | cons b bs ih =>
      rw [List.cons_append, holds_cons, ih, holds_cons, and_assoc, List.length_cons,
        Nat.add_assoc, Nat.add_comm 1]

/-- A list written out from `p` lies at `p`. -/
theorem holds_getD (bs : List B) (p : ℕ) (d : B) : Holds (fun a => bs.getD (a - p) d) p bs := by
  intro k b hb
  dsimp only
  rw [Nat.add_sub_cancel_left, List.getD_eq_getElem?_getD, hb]
  rfl

theorem copy_apply (src : ℕ) (buffer : ℕ → B) (k : ℕ) :
    ∀ n, copy mem src buffer n k = if k < n then mem (src + k) else buffer k
  | 0 => rfl
  | n + 1 => by
      rw [copy]
      by_cases e : k = n
      · subst e
        rw [Function.update_self, if_pos (Nat.lt_succ_self k)]
      · rw [Function.update_of_ne e, copy_apply src buffer k n]
        by_cases h : k < n
        · rw [if_pos h, if_pos (Nat.lt_succ_of_lt h)]
        · rw [if_neg h, if_neg fun h' => h (Nat.lt_of_le_of_ne (Nat.le_of_lt_succ h') e)]

/-- What is copied from where `bs` lies. -/
theorem copy_holds {bs : List B} (h : Holds mem p bs) (offset n : ℕ) (buffer : ℕ → B) :
    Holds (copy mem (p + offset) buffer n) 0 ((bs.drop offset).take n) := by
  intro k b hb
  rw [List.getElem?_take] at hb
  split at hb
  · rename_i hk
    rw [List.getElem?_drop] at hb
    rw [Nat.zero_add, copy_apply, if_pos hk, Nat.add_assoc]
    exact h _ b hb
  · cases hb

/-- The bytes `bs` stored at `p`. -/
def put (mem : ℕ → B) (p : ℕ) : List B → ℕ → B
  | [] => mem
  | b :: bs => put (Function.update mem p b) (p + 1) bs

theorem put_outside {bs : List B} {a : ℕ} (h : a < p ∨ p + bs.length ≤ a) :
    put mem p bs a = mem a := by
  induction bs generalizing mem p with
  | nil => rfl
  | cons b bs ih =>
      rw [List.length_cons] at h
      rw [put, ih (by omega), Function.update_of_ne (by omega)]

/-- Bytes lie where they did, if a change spares their range. -/
theorem Holds.of_agree {mem' : ℕ → B} {bs : List B} (h : Holds mem p bs)
    (hagree : ∀ a, p ≤ a → a < p + bs.length → mem' a = mem a) : Holds mem' p bs := by
  intro k b hb
  have hk := (List.getElem?_eq_some_iff.mp hb).1
  exact (hagree _ (by omega) (by omega)).trans (h k b hb)

/-- A byte stored behind the bytes. -/
theorem Holds.snoc {bs : List B} {n : ℕ} (h : Holds mem p bs) (hlen : bs.length = n) (b : B) :
    Holds (Function.update mem (p + n) b) p (bs ++ [b]) := by
  subst hlen
  refine holds_append.mpr ⟨h.of_agree fun a _ ha => Function.update_of_ne (by omega) _ _, ?_⟩
  exact holds_cons.mpr ⟨Function.update_self _ _ _, holds_nil⟩

theorem holds_put (bs : List B) : Holds (put mem p bs) p bs := by
  induction bs generalizing mem p with
  | nil => exact holds_nil
  | cons b bs ih =>
      refine holds_cons.mpr ⟨?_, ih⟩
      rw [put, put_outside (.inl (Nat.lt_succ_self p)), Function.update_self]

/-- A store off the range of the bytes. -/
theorem Holds.put {bs cs : List B} {q : ℕ} (h : Holds mem q cs)
    (hoff : q + cs.length ≤ p ∨ p + bs.length ≤ q) : Holds (put mem p bs) q cs :=
  h.of_agree fun a _ _ => put_outside (by omega)

/-! ### Arrays -/

/-- Entries of `n` bytes each, the first `k` of an array at `base`. -/
def HoldsArray (mem : ℕ → B) (base n k : ℕ) (f : ℕ → List B) : Prop :=
  ∀ i < k, Holds mem (base + n * i) (f i) ∧ (f i).length = n

namespace HoldsArray

variable {base n k i : ℕ} {f : ℕ → List B}

/-- A store of one entry. -/
theorem put (h : HoldsArray mem base n k f) {bs : List B} (hlen : bs.length = n) :
    HoldsArray (put mem (base + n * i) bs) base n k (Function.update f i bs) := by
  intro j hj
  by_cases e : j = i
  · subst e
    rw [Function.update_self]
    exact ⟨holds_put bs, hlen⟩
  · rw [Function.update_of_ne e]
    obtain ⟨hf, hn⟩ := h j hj
    refine ⟨hf.put ?_, hn⟩
    rw [hn, hlen]
    rw [Nat.add_assoc, Nat.add_assoc, ← Nat.mul_succ, ← Nat.mul_succ]
    rcases Nat.lt_or_gt_of_ne e with hlt | hgt
    · exact .inl (Nat.add_le_add_left (Nat.mul_le_mul_left n hlt) base)
    · exact .inr (Nat.add_le_add_left (Nat.mul_le_mul_left n hgt) base)

/-- A store of the next entry. -/
theorem snoc (h : HoldsArray mem base n k f) (hlen : (f k).length = n) :
    HoldsArray (Lib.put mem (base + n * k) (f k)) base n (k + 1) f := by
  intro i hi
  rcases Nat.lt_succ_iff_lt_or_eq.mp hi with hlt | rfl
  · obtain ⟨hf, hn⟩ := h i hlt
    refine ⟨hf.put (.inl ?_), hn⟩
    rw [hn, Nat.add_assoc, ← Nat.mul_succ]
    exact Nat.add_le_add_left (Nat.mul_le_mul_left n hlt) base
  · exact ⟨holds_put _, hlen⟩

/-- A change that spares the array. -/
theorem of_agree {mem' : ℕ → B} (h : HoldsArray mem base n k f)
    (hagree : ∀ a, base ≤ a → a < base + n * k → mem' a = mem a) :
    HoldsArray mem' base n k f := by
  intro i hi
  obtain ⟨hf, hn⟩ := h i hi
  refine ⟨hf.of_agree fun a h₁ h₂ => hagree a (by omega) ?_, hn⟩
  have hend : n * (i + 1) ≤ n * k := Nat.mul_le_mul_left n hi
  rw [Nat.mul_succ] at hend
  omega

/-- A store off the array. -/
theorem put_off (h : HoldsArray mem base n k f) (p : ℕ) (bs : List B)
    (hoff : base + n * k ≤ p ∨ p + bs.length ≤ base) :
    HoldsArray (Lib.put mem p bs) base n k f :=
  h.of_agree fun _ _ _ => put_outside (by omega)

end HoldsArray

/-- The `n` bytes from `p` on. -/
def slice (mem : ℕ → B) (p n : ℕ) : List B :=
  (List.range n).map fun i => mem (p + i)

@[simp] theorem length_slice (mem : ℕ → B) (p n : ℕ) : (slice mem p n).length = n := by
  rw [slice, List.length_map, List.length_range]

theorem getElem?_slice (mem : ℕ → B) (p : ℕ) {n i : ℕ} (h : i < n) :
    (slice mem p n)[i]? = some (mem (p + i)) := by
  rw [slice, List.getElem?_map, List.getElem?_range h, Option.map_some]

theorem holds_slice (mem : ℕ → B) (p n : ℕ) : Holds mem p (slice mem p n) := by
  intro k b hb
  have hk := (List.getElem?_eq_some_iff.mp hb).1
  rw [length_slice] at hk
  exact Option.some.inj ((getElem?_slice mem p hk).symm.trans hb)

/-- Any array, as it lies. -/
theorem holdsArray_slice (mem : ℕ → B) (base n k : ℕ) :
    HoldsArray mem base n k fun i => slice mem (base + n * i) n :=
  fun _ _ => ⟨holds_slice mem _ n, length_slice mem _ n⟩

theorem slice_append (mem : ℕ → B) (p m n : ℕ) :
    slice mem p (m + n) = slice mem p m ++ slice mem (p + m) n := by
  rw [slice, List.range_add, List.map_append, List.map_map]
  refine congrArg _ (List.map_congr_left fun i _ => ?_)
  rw [Function.comp, Nat.add_assoc]

theorem slice_succ (mem : ℕ → B) (p n : ℕ) :
    slice mem p (n + 1) = mem p :: slice mem (p + 1) n := by
  rw [Nat.add_comm, slice_append]
  rfl

theorem take_slice (mem : ℕ → B) (p : ℕ) {m n : ℕ} (h : m ≤ n) :
    (slice mem p n).take m = slice mem p m := by
  rw [slice, ← List.map_take, List.take_range, Nat.min_eq_left h]
  rfl

theorem slice_eq_slice {mem mem' : ℕ → B} {p q n : ℕ} :
    slice mem p n = slice mem' q n ↔ ∀ i < n, mem (p + i) = mem' (q + i) := by
  constructor
  · intro h i hi
    have hget := getElem?_slice mem p hi
    rw [h, getElem?_slice mem' q hi] at hget
    exact (Option.some.inj hget).symm
  · intro h
    exact List.map_congr_left fun i hi => h i (List.mem_range.mp hi)

/-- The first bytes of what lies at `p`. -/
theorem Holds.slice_take {bs : List B} (h : Holds mem p bs) {n : ℕ} (hn : n ≤ bs.length) :
    slice mem p n = bs.take n := by
  refine List.ext_getElem? fun i => ?_
  by_cases hi : i < n
  · rw [getElem?_slice mem p hi, List.getElem?_take_of_lt hi]
    have hget := List.getElem?_eq_getElem (Nat.lt_of_lt_of_le hi hn)
    rw [hget, h i _ hget]
  · rw [List.getElem?_eq_none (by simpa using Nat.not_lt.mp hi),
      List.getElem?_take_eq_none (Nat.not_lt.mp hi)]

/-- Byte `k` of `m` ranges of `n` bytes, one after another. -/
theorem getElem?_slices (mem : ℕ → B) (start : ℕ → ℕ) (n : ℕ) {m k : ℕ} (hk : k < m * n) :
    ((List.range m).flatMap fun i => slice mem (start i) n)[k]? =
      some (mem (start (k / n) + k % n)) := by
  induction m with
  | zero => omega
  | succ m ih =>
      rw [Nat.succ_mul] at hk
      have hlen : ((List.range m).flatMap fun i => slice mem (start i) n).length = m * n := by
        simp only [List.length_flatMap, length_slice, List.map_const', List.sum_replicate_nat,
          List.length_range]
      rw [List.range_succ, List.flatMap_append, List.getElem?_append, hlen, List.flatMap_singleton]
      split
      · rename_i hm
        exact ih hm
      · rename_i hm
        have hn : 0 < n := by omega
        have hdiv : k / n = m ∧ k % n = k - m * n := by
          refine (Nat.div_mod_unique hn).mpr ⟨?_, by omega⟩
          rw [Nat.mul_comm n]
          omega
        rw [hdiv.1, hdiv.2, getElem?_slice mem _ (by omega)]

/-! ### Ranges -/

/-- The `n` bytes from `p` on replaced by the first ones of `f`. -/
def overwrite (mem : ℕ → B) (p n : ℕ) (f : ℕ → B) : ℕ → B := fun a =>
  if p ≤ a ∧ a < p + n then f (a - p) else mem a

theorem overwrite_inside (mem f : ℕ → B) (p : ℕ) {n i : ℕ} (h : i < n) :
    overwrite mem p n f (p + i) = f i := by
  rw [overwrite, if_pos ⟨Nat.le_add_right p i, Nat.add_lt_add_left h p⟩, Nat.add_sub_cancel_left]

theorem overwrite_outside (mem f : ℕ → B) {n a : ℕ} (h : a < p ∨ p + n ≤ a) :
    overwrite mem p n f a = mem a := by
  refine if_neg ?_
  rintro ⟨hle, hlt⟩
  omega

theorem overwrite_congr {mem f g : ℕ → B} {p n : ℕ} (h : ∀ i < n, f i = g i) :
    overwrite mem p n f = overwrite mem p n g := by
  ext a
  rw [overwrite, overwrite]
  split
  · exact h _ (by omega)
  · rfl

@[simp] theorem overwrite_zero (mem f : ℕ → B) (p : ℕ) : overwrite mem p 0 f = mem := by
  ext a
  exact overwrite_outside mem f (Nat.lt_or_ge a p)

/-- A range replaced in two parts. -/
theorem overwrite_append (mem f : ℕ → B) (p m n : ℕ) :
    overwrite (overwrite mem p m f) (p + m) n (fun i => f (m + i)) = overwrite mem p (m + n) f := by
  ext a
  by_cases hlow : a < p + m
  · rw [overwrite_outside _ _ (.inl hlow)]
    by_cases hp : p ≤ a
    · obtain ⟨i, rfl⟩ := Nat.exists_eq_add_of_le hp
      rw [overwrite_inside mem f p (by omega), overwrite_inside mem f p (by omega)]
    · rw [overwrite_outside mem f (by omega), overwrite_outside mem f (by omega)]
  · obtain ⟨i, rfl⟩ := Nat.exists_eq_add_of_le (Nat.not_lt.mp hlow)
    by_cases hi : i < n
    · rw [overwrite_inside _ _ _ hi, Nat.add_assoc, overwrite_inside mem f p (by omega)]
    · rw [overwrite_outside _ _ (by omega), overwrite_outside mem f (by omega),
        overwrite_outside mem f (by omega)]

theorem overwrite_two (mem f : ℕ → B) (p : ℕ) :
    overwrite mem p 2 f = Function.update (Function.update mem p (f 0)) (p + 1) (f 1) := by
  ext a
  by_cases h₁ : a = p + 1
  · subst h₁
    rw [overwrite_inside mem f p (by decide), Function.update_self]
  · rw [Function.update_of_ne h₁]
    by_cases h₀ : a = p
    · subst h₀
      rw [Function.update_self]
      exact overwrite_inside mem f a Nat.two_pos
    · rw [Function.update_of_ne h₀, overwrite_outside mem f (by omega)]

/-! ### Little-endian numbers -/

/-- The low `n` bytes of `v`, the lowest first. -/
def encodeLe : ℕ → ℕ → List (BitVec 8)
  | 0, _ => []
  | n + 1, v => BitVec.ofNat 8 v :: encodeLe n (v / 256)

/-- The number in the `n` bytes at `a`, the lowest first. -/
def leAt (mem : ℕ → BitVec 8) (a : ℕ) : ℕ → ℕ
  | 0 => 0
  | n + 1 => (mem a).toNat + 256 * leAt mem (a + 1) n

@[simp] theorem length_encodeLe (n v : ℕ) : (encodeLe n v).length = n := by
  induction n generalizing v with
  | zero => rfl
  | succ n ih => rw [encodeLe, List.length_cons, ih]

theorem leAt_of_holds {mem : ℕ → BitVec 8} {a n v : ℕ} (h : Holds mem a (encodeLe n v)) :
    leAt mem a n = v % 256 ^ n := by
  induction n generalizing a v with
  | zero => rw [leAt, Nat.pow_zero, Nat.mod_one]
  | succ n ih =>
      obtain ⟨hb, hbs⟩ := holds_cons.mp h
      have hpow : 256 ^ (n + 1) = 256 * 256 ^ n := Nat.pow_succ'
      rw [leAt, hb, ih hbs, BitVec.toNat_ofNat, hpow, Nat.mod_mul]

/-- The low bytes and the high ones. -/
theorem leAt_add (mem : ℕ → BitVec 8) (a m n : ℕ) :
    leAt mem a (m + n) = leAt mem a m + 256 ^ m * leAt mem (a + m) n := by
  induction m generalizing a with
  | zero => rw [Nat.zero_add, leAt, Nat.pow_zero, Nat.one_mul, Nat.zero_add, Nat.add_zero]
  | succ m ih =>
      rw [Nat.add_right_comm, leAt, leAt, ih, Nat.pow_succ', Nat.mul_add, Nat.mul_assoc,
        Nat.add_assoc, Nat.add_assoc, Nat.add_comm 1 m]

theorem leAt_lt (mem : ℕ → BitVec 8) (a : ℕ) : ∀ n, leAt mem a n < 256 ^ n
  | 0 => Nat.one_pos
  | n + 1 => by
      have hlow := (mem a).isLt
      have hhigh := leAt_lt mem (a + 1) n
      rw [leAt, Nat.pow_succ']
      omega

theorem leAt_eq_leAt {mem mem' : ℕ → BitVec 8} {a b n : ℕ}
    (h : ∀ i < n, mem (a + i) = mem' (b + i)) : leAt mem a n = leAt mem' b n := by
  induction n generalizing a b with
  | zero => rfl
  | succ n ih =>
      have hrest : leAt mem (a + 1) n = leAt mem' (b + 1) n := by
        refine ih fun i hi => ?_
        rw [Nat.add_assoc, Nat.add_assoc, Nat.add_comm 1]
        exact h (i + 1) (Nat.succ_lt_succ hi)
      rw [leAt, leAt, hrest, show mem a = mem' b from h 0 (Nat.succ_pos n)]

theorem leAt_congr {mem mem' : ℕ → BitVec 8} {a n : ℕ}
    (h : ∀ x, a ≤ x → x < a + n → mem' x = mem x) : leAt mem' a n = leAt mem a n :=
  leAt_eq_leAt fun i hi => h (a + i) (Nat.le_add_right a i) (Nat.add_lt_add_left hi a)

end ZeptoOS.Lib
