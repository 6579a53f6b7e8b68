import Mathlib.Data.BitVec

/-!
# Lib — Store

A memory of words of type `W` at addresses of type `A`, with a ghost record of the addresses
stored to.  The record tells a store of the value already there from no store at all, so that
"never writes outside" can be said of the stores and not only of the contents.  `Stored` is what a
piece of code did that stored to certain addresses; `setAll` and `setWhile` are loops of stores, and
`readsWhile` lists what the second one reads.
-/

namespace ZeptoOS.Lib

/-- A memory: its contents, and the addresses stored to so far, latest first. -/
structure Store (A W : Type*) where
  cell : A → W
  written : List A

namespace Store

variable {A W : Type*}

section Stored

/-- What a loop from `m` to `m'` did that stored to the addresses `T`. -/
structure Stored (m m' : Store A W) (T : A → Prop) : Prop where
  written : ∀ a, a ∈ m'.written ↔ a ∈ m.written ∨ T a
  cell : ∀ a, ¬ T a → m'.cell a = m.cell a

variable {m m₁ m₂ : Store A W} {T T' : A → Prop}

theorem Stored.none : Stored m m fun _ => False :=
  ⟨fun _ => (or_false _).symm.to_iff, fun _ _ => rfl⟩

theorem Stored.trans (h : Stored m m₁ T) (h' : Stored m₁ m₂ T') :
    Stored m m₂ fun a => T a ∨ T' a where
  written a := by rw [h'.written, h.written, or_assoc]
  cell a ha := by
    rw [not_or] at ha
    rw [h'.cell a ha.2, h.cell a ha.1]

theorem Stored.congr (h : Stored m m₁ T) (hT : ∀ a, T a ↔ T' a) : Stored m m₁ T' :=
  (funext fun a => propext (hT a) : T = T') ▸ h

end Stored

variable [DecidableEq A]

/-- `*a = w`. -/
def set (m : Store A W) (a : A) (w : W) : Store A W where
  cell x := if x = a then w else m.cell x
  written := a :: m.written

@[simp] theorem set_cell_same (m : Store A W) (a : A) (w : W) : (m.set a w).cell a = w :=
  if_pos rfl

theorem set_cell_other {m : Store A W} {a x : A} {w : W} (h : x ≠ a) :
    (m.set a w).cell x = m.cell x :=
  if_neg h

@[simp] theorem set_written (m : Store A W) (a : A) (w : W) :
    (m.set a w).written = a :: m.written := rfl

/-- Storing `f x` at `slot x`, for each `x` of a list in turn: a counted loop of stores. -/
def setAll {X : Type*} (slot : X → A) (f : X → W) (m : Store A W) (xs : List X) : Store A W :=
  xs.foldl (fun m x => m.set (slot x) (f x)) m

section setAll

variable {X : Type*} {slot : X → A} {f : X → W}

theorem setAll_cell_other {m : Store A W} {xs : List X} {a : A} (h : ∀ x ∈ xs, a ≠ slot x) :
    (m.setAll slot f xs).cell a = m.cell a := by
  induction xs generalizing m with
  | nil => rfl
  | cons x xs ih =>
      rw [setAll, List.foldl_cons, ← setAll, ih fun y hy => h y (List.mem_cons_of_mem _ hy)]
      exact set_cell_other (h x List.mem_cons_self)

/-- A loop over distinct slots leaves each with its value. -/
theorem setAll_cell_slot {m : Store A W} {xs : List X} {x : X}
    (hinj : ∀ y ∈ xs, slot x = slot y → x = y) (hx : x ∈ xs) :
    (m.setAll slot f xs).cell (slot x) = f x := by
  induction xs generalizing m with
  | nil => cases hx
  | cons y ys ih =>
      have hinj' : ∀ z ∈ ys, slot x = slot z → x = z :=
        fun z hz => hinj z (List.mem_cons_of_mem _ hz)
      rw [setAll, List.foldl_cons, ← setAll]
      by_cases hys : x ∈ ys
      · exact ih hinj' hys
      · obtain rfl : x = y := (List.mem_cons.mp hx).resolve_right hys
        rw [setAll_cell_other fun z hz e => hys (hinj' z hz e ▸ hz)]
        exact set_cell_same _ _ _

theorem setAll_written {m : Store A W} {xs : List X} :
    (m.setAll slot f xs).written = (xs.map slot).reverse ++ m.written := by
  induction xs generalizing m with
  | nil => rfl
  | cons x xs ih =>
      rw [setAll, List.foldl_cons, ← setAll, ih]
      simp

end setAll

/-- `for (; j < bound; j++) *slot(j) = value(j);`, with the bound and the value read from the memory
as it stands at each turn.  A bound of `w` bits ends the loop. -/
def setWhile {w : ℕ} (bound : Store A W → BitVec w) (slot : ℕ → A) (value : Store A W → ℕ → W)
    (m : Store A W) (j : ℕ) : Store A W :=
  if j < (bound m).toNat then
    setWhile bound slot value (m.set (slot j) (value m j)) (j + 1)
  else m
termination_by 2 ^ w - j
decreasing_by
  have := (bound m).isLt
  omega

theorem Stored.set (m : Store A W) (a : A) (w : W) : Stored m (m.set a w) (· = a) :=
  ⟨fun _ => List.mem_cons.trans or_comm, fun _ => set_cell_other⟩

/-- **The rule of the loop.**  `I` holds before it, each turn keeps it, and it fixes the bound: the
loop stores to the slots below the bound, and `I` holds after it. -/
theorem Stored.setWhile_inv {m : Store A W} {w : ℕ} {bound : Store A W → BitVec w} {slot : ℕ → A}
    {value : Store A W → ℕ → W} {I : Store A W → Prop} {n j : ℕ}
    (hbound : ∀ m', I m' → (bound m').toNat = n)
    (hstep : ∀ m' i, I m' → j ≤ i → i < n → I (m'.set (slot i) (value m' i))) (hm : I m) :
    Stored m (m.setWhile bound slot value j) (fun a => ∃ i, j ≤ i ∧ i < n ∧ a = slot i) ∧
      I (m.setWhile bound slot value j) := by
  rw [Store.setWhile, hbound m hm]
  split
  · rename_i hj
    have hset := Stored.set m (slot j) (value m j)
    obtain ⟨hrest, hI⟩ := Stored.setWhile_inv (j := j + 1) hbound
      (fun m' i hm' hi => hstep m' i hm' (Nat.le_of_succ_le hi)) (hstep m j hm (Nat.le_refl j) hj)
    refine ⟨(hset.trans hrest).congr fun a => ⟨?_, ?_⟩, hI⟩
    · rintro (rfl | ⟨i, hi, hin, rfl⟩)
      · exact ⟨j, Nat.le_refl j, hj, rfl⟩
      · exact ⟨i, Nat.le_of_succ_le hi, hin, rfl⟩
    · rintro ⟨i, hi, hin, rfl⟩
      by_cases e : i = j
      · exact .inl (congrArg slot e)
      · exact .inr ⟨i, by omega, hin, rfl⟩
  · rename_i hj
    exact ⟨Stored.none.congr fun a => ⟨False.elim, fun ⟨i, hi, hin, _⟩ => hj (by omega)⟩, hm⟩
termination_by n - j

/-- A loop whose bound does not depend on its slots stores to those below the bound; `S` is where
the bound does not look. -/
theorem Stored.setWhile {m : Store A W} {w : ℕ} {bound : Store A W → BitVec w} {slot : ℕ → A}
    {value : Store A W → ℕ → W} {S : A → Prop} {n j : ℕ}
    (hbound : ∀ m', (∀ a, ¬ S a → m'.cell a = m.cell a) → (bound m').toNat = n)
    (hslot : ∀ i, j ≤ i → i < n → S (slot i)) :
    Stored m (m.setWhile bound slot value j) fun a => ∃ i, j ≤ i ∧ i < n ∧ a = slot i :=
  (Stored.setWhile_inv (I := fun m' => ∀ a, ¬ S a → m'.cell a = m.cell a) hbound
    (fun m' i hm' hi hin a ha => ((Stored.set m' (slot i) (value m' i)).cell a fun e =>
      ha (show S a from e ▸ hslot i hi hin)).trans (hm' a ha))
    fun _ _ => rfl).1

/-- A loop over distinct slots leaves each with its value, if `I` fixes the values too. -/
theorem setWhile_cell {m : Store A W} {w : ℕ} {bound : Store A W → BitVec w} {slot : ℕ → A}
    {value : Store A W → ℕ → W} {I : Store A W → Prop} {v : ℕ → W} {n j : ℕ}
    (hbound : ∀ m', I m' → (bound m').toNat = n)
    (hstep : ∀ m' i, I m' → j ≤ i → i < n → I (m'.set (slot i) (value m' i))) (hm : I m)
    (hvalue : ∀ m' i, I m' → j ≤ i → i < n → value m' i = v i)
    (hinj : ∀ i k, j ≤ i → i < k → k < n → slot i ≠ slot k) {i : ℕ} (hi : j ≤ i) (hin : i < n) :
    (m.setWhile bound slot value j).cell (slot i) = v i := by
  have hj : j < n := Nat.lt_of_le_of_lt hi hin
  have hnext := hstep m j hm (Nat.le_refl j) hj
  have hstep' : ∀ m' i, I m' → j + 1 ≤ i → i < n → I (m'.set (slot i) (value m' i)) :=
    fun m' i hm' hi => hstep m' i hm' (Nat.le_of_succ_le hi)
  rw [Store.setWhile, hbound m hm, if_pos hj]
  rcases Nat.eq_or_lt_of_le hi with rfl | hlt
  · -- the later turns store to other slots
    obtain ⟨hrest, -⟩ := Stored.setWhile_inv hbound hstep' hnext
    rw [hrest.cell _ fun ⟨k, hk, hkn, e⟩ => hinj j k (Nat.le_refl j) hk hkn e, set_cell_same]
    exact hvalue m j hm (Nat.le_refl j) hj
  · exact setWhile_cell hbound hstep' hnext
      (fun m' i hm' hi => hvalue m' i hm' (Nat.le_of_succ_le hi))
      (fun i k hi => hinj i k (Nat.le_of_succ_le hi)) hlt hin
termination_by n - j

/-- What the loop `setWhile` reads: `test` for each test of its bound, and `body j` in turn `j`. -/
def readsWhile {R : Type*} {w : ℕ} (bound : Store A W → BitVec w) (slot : ℕ → A)
    (value : Store A W → ℕ → W) (test : List R) (body : ℕ → List R) (m : Store A W) (j : ℕ) :
    List R :=
  if j < (bound m).toNat then
    test ++ body j ++ readsWhile bound slot value test body (m.set (slot j) (value m j)) (j + 1)
  else test
termination_by 2 ^ w - j
decreasing_by
  have := (bound m).isLt
  omega

theorem mem_readsWhile {R : Type*} {m : Store A W} {w : ℕ} {bound : Store A W → BitVec w}
    {slot : ℕ → A} {value : Store A W → ℕ → W} {test : List R} {body : ℕ → List R}
    {I : Store A W → Prop} {n j : ℕ} (hbound : ∀ m', I m' → (bound m').toNat = n)
    (hstep : ∀ m' i, I m' → j ≤ i → i < n → I (m'.set (slot i) (value m' i))) (hm : I m) {r : R} :
    r ∈ readsWhile bound slot value test body m j ↔
      r ∈ test ∨ ∃ i, j ≤ i ∧ i < n ∧ r ∈ body i := by
  rw [readsWhile, hbound m hm]
  split
  · rename_i hj
    have hrest : r ∈ readsWhile bound slot value test body (m.set (slot j) (value m j)) (j + 1) ↔
        _ := mem_readsWhile hbound (fun m' i hm' hi => hstep m' i hm' (Nat.le_of_succ_le hi))
        (hstep m j hm (Nat.le_refl j) hj)
    rw [List.mem_append, List.mem_append, hrest, or_assoc]
    constructor
    · rintro (htest | hbody | htest | ⟨i, hi, hin, hbody⟩)
      · exact .inl htest
      · exact .inr ⟨j, Nat.le_refl j, hj, hbody⟩
      · exact .inl htest
      · exact .inr ⟨i, Nat.le_of_succ_le hi, hin, hbody⟩
    · rintro (htest | ⟨i, hi, hin, hbody⟩)
      · exact .inl htest
      · rcases Nat.eq_or_lt_of_le hi with rfl | hlt
        · exact .inr (.inl hbody)
        · exact .inr (.inr (.inr ⟨i, hlt, hin, hbody⟩))
  · rename_i hj
    exact ⟨.inl, fun h => h.resolve_right fun ⟨i, hi, hin, _⟩ => hj (by omega)⟩
termination_by n - j

end Store

end ZeptoOS.Lib
