import Mathlib.Data.Fintype.Pigeonhole

/-!
# Lib — Walk

The walk of a partial function: `visit next s n` is the state after `n` steps from `s`, and none
where the walk has ended before.  On finitely many states a walk ends exactly if it visits no state
twice (`ends_iff_never_twice`), and so it ends where its steps increase a measure
(`ends_of_increasing`).
-/

namespace ZeptoOS.Lib

variable {S : Type*}

/-- The state after `n` steps. -/
def visit (next : S → Option S) (s : S) : ℕ → Option S
  | 0 => some s
  | n + 1 => (visit next s n).bind next

variable {next : S → Option S} {s t : S}

theorem visit_succ (n : ℕ) : visit next s (n + 1) = (next s).bind (visit next · n) := by
  induction n with
  | zero => cases h : next s <;> simp [visit, h]
  | succ n ih => rw [visit, ih, Option.bind_assoc]; rfl

theorem visit_add (m : ℕ) : ∀ n, visit next s (m + n) = (visit next s m).bind (visit next · n)
  | 0 => (Option.bind_fun_some _).symm
  | n + 1 => by rw [← Nat.add_assoc, visit, visit_add m n, Option.bind_assoc]; rfl

/-- A walk that has ended stays so. -/
theorem visit_none {m n : ℕ} (h : visit next s m = none) (hle : m ≤ n) :
    visit next s n = none := by
  obtain ⟨k, rfl⟩ := Nat.exists_eq_add_of_le hle
  rw [visit_add, h]
  rfl

/-- A walk that comes back goes round. -/
theorem visit_round {i k : ℕ} (hi : visit next s i = some t) (hk : visit next t k = some t) :
    ∀ r, visit next s (i + k * r) = some t
  | 0 => hi
  | r + 1 => by
      rw [Nat.mul_succ, ← Nat.add_assoc, visit_add, visit_round hi hk r]
      exact hk

/-- **A walk over finitely many states ends exactly if it visits none of them twice.** -/
theorem ends_iff_never_twice [Finite S] :
    (∃ n, visit next s n = none) ↔
      ∀ i j t, i < j → visit next s i = some t → visit next s j ≠ some t := by
  constructor
  · rintro ⟨n, hn⟩ i j t hij hi hj
    obtain ⟨k, rfl⟩ := Nat.exists_eq_add_of_lt hij
    rw [Nat.add_assoc, visit_add, hi] at hj
    have hround := visit_round hi hj n
    rw [visit_none hn (Nat.le_add_left_of_le (Nat.le_mul_of_pos_left n (Nat.succ_pos k)))]
      at hround
    cases hround
  · intro htwice
    by_contra hends
    have hsome : ∀ n, ∃ t, visit next s n = some t :=
      fun n => Option.ne_none_iff_exists'.mp fun h => hends ⟨n, h⟩
    choose f hf using hsome
    obtain ⟨i, j, hne, hij⟩ := Finite.exists_ne_map_eq_of_infinite f
    rcases Nat.lt_or_gt_of_ne hne with h | h
    · exact htwice i j _ h (hf i) (hij ▸ hf j)
    · exact htwice j i _ h (hf j) (hij ▸ hf i)

/-- Where steps from visited states increase a measure, so do visits. -/
theorem visit_increasing {f : S → ℕ}
    (hstep : ∀ n t u, visit next s n = some t → next t = some u → f t < f u) {i : ℕ}
    (hi : visit next s i = some t) :
    ∀ {k : ℕ} {u : S}, visit next s (i + k + 1) = some u → f t < f u
  | 0, u, hu => by
      rw [Nat.add_zero, visit, hi] at hu
      exact hstep i t u hi hu
  | k + 1, u, hu => by
      obtain ⟨v, hv, hvu⟩ := Option.bind_eq_some_iff.mp hu
      exact Nat.lt_trans (visit_increasing hstep hi hv) (hstep _ v u hv hvu)

/-- **The measure rule.** -/
theorem ends_of_increasing [Finite S] {f : S → ℕ}
    (hstep : ∀ n t u, visit next s n = some t → next t = some u → f t < f u) :
    ∃ n, visit next s n = none := by
  refine ends_iff_never_twice.mpr fun i j t hij hi hj => ?_
  obtain ⟨k, rfl⟩ := Nat.exists_eq_add_of_lt hij
  exact Nat.lt_irrefl _ (visit_increasing hstep hi hj)

end ZeptoOS.Lib
