import Mathlib.Data.Nat.Init

/-!
# Lib — Fuel

What a loop that takes fuel returns.
-/

namespace ZeptoOS.Lib

variable {A B : Type*}

/-- `f` returns `a` with any fuel from some on. -/
def Returns (f : ℕ → Option A) (a : A) : Prop :=
  ∃ enough, ∀ fuel ≥ enough, f fuel = some a

namespace Returns

variable {f : ℕ → Option A} {a b : A}

/-- There is one thing it returns. -/
theorem unique (ha : Returns f a) (hb : Returns f b) : a = b := by
  obtain ⟨n, hn⟩ := ha
  obtain ⟨m, hm⟩ := hb
  have hfuel := hn (max n m) (Nat.le_max_left n m)
  rw [hm (max n m) (Nat.le_max_right n m)] at hfuel
  exact (Option.some.inj hfuel).symm

theorem pure (a : A) : Returns (fun _ => some a) a := ⟨0, fun _ _ => rfl⟩

/-- One loop after another. -/
theorem bind {g : A → ℕ → Option B} {b : B} (hf : Returns f a) (hg : Returns (g a) b) :
    Returns (fun fuel => (f fuel).bind fun a => g a fuel) b := by
  obtain ⟨n, hn⟩ := hf
  obtain ⟨m, hm⟩ := hg
  refine ⟨max n m, fun fuel hfuel => ?_⟩
  dsimp only
  rw [hn fuel (Nat.le_trans (Nat.le_max_left n m) hfuel), Option.bind_some]
  exact hm fuel (Nat.le_trans (Nat.le_max_right n m) hfuel)

theorem map (hf : Returns f a) (φ : A → B) : Returns (fun fuel => (f fuel).map φ) (φ a) := by
  obtain ⟨n, hn⟩ := hf
  exact ⟨n, fun fuel hfuel => congrArg (Option.map φ) (hn fuel hfuel)⟩

/-- A loop that never stops returns nothing. -/
theorem not_of_none (h : ∀ fuel, f fuel = none) : ¬ Returns f a := by
  rintro ⟨n, hn⟩
  exact Option.some_ne_none a ((hn n (Nat.le_refl n)).symm.trans (h n))

/-- A loop that stops in its first turn. -/
theorem stop (h : ∀ fuel, f (fuel + 1) = some a) : Returns f a :=
  ⟨1, fun fuel hfuel => by
    obtain ⟨fuel, rfl⟩ := Nat.exists_eq_succ_of_ne_zero (Nat.ne_zero_of_lt hfuel)
    exact h fuel⟩

/-- A loop that goes on after its first turn, and adds `φ` to what the rest returns. -/
theorem turn {g : ℕ → Option B} {φ : B → A} (h : ∀ fuel, f (fuel + 1) = (g fuel).map φ) {b : B}
    (hg : Returns g b) : Returns f (φ b) := by
  obtain ⟨n, hn⟩ := hg
  refine ⟨n + 1, fun fuel hfuel => ?_⟩
  obtain ⟨fuel, rfl⟩ := Nat.exists_eq_succ_of_ne_zero (Nat.ne_zero_of_lt hfuel)
  rw [h, hn fuel (Nat.le_of_succ_le_succ hfuel), Option.map_some]

/-- A loop that goes on after its first turn, and returns what the rest does. -/
theorem skip {g : ℕ → Option A} (hg : Returns g a) (h : ∀ fuel, f (fuel + 1) = g fuel) :
    Returns f a := by
  have hmap : ∀ fuel, f (fuel + 1) = (g fuel).map id := by
    intro fuel
    rw [h, Option.map_id]
    rfl
  exact turn hmap hg

/-- Where `φ` loses nothing, the rest returns too. -/
theorem of_turn {g : ℕ → Option B} {φ : B → A} (h : ∀ fuel, f (fuel + 1) = (g fuel).map φ)
    (hφ : Function.Injective φ) (hf : Returns f a) : ∃ b, Returns g b ∧ φ b = a := by
  obtain ⟨n, hn⟩ := hf
  have hsome : ∀ fuel ≥ n, ∃ b, g fuel = some b ∧ φ b = a := fun fuel hfuel =>
    Option.map_eq_some_iff.mp ((h fuel).symm.trans (hn (fuel + 1) (Nat.le_succ_of_le hfuel)))
  obtain ⟨b, -, hb⟩ := hsome n (Nat.le_refl n)
  refine ⟨b, ⟨n, fun fuel hfuel => ?_⟩, hb⟩
  obtain ⟨c, hc, hca⟩ := hsome fuel hfuel
  rw [hc, hφ (hca.trans hb.symm)]

end Returns

end ZeptoOS.Lib
