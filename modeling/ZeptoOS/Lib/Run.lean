import Mathlib.Data.List.Basic

/-!
# Lib — Run

Runs of a labelled transition relation, and the rules the development uses on them: an invariant
kept by every step holds at the end of a run (`Run.inv`, and `Run.inv_history` for one that speaks
of the labels so far), what can be seen of a run is a run of its own (`Run.project`), what is read
at the end of a run is what the last label to write it wrote (`Run.latest`), and a property that an
invariant and a side condition give at each step holds all along a run whose steps meet the side
condition (`Along.of_inv`).
-/

namespace ZeptoOS.Lib

variable {State Label : Type*}

/-- A run of `step`, with the labels it took. -/
inductive Run (step : State → Label → State → Prop) : State → List Label → State → Prop where
  | refl (s : State) : Run step s [] s
  | more {s s₁ s' : State} {l : Label} {ls : List Label}
      (h : step s l s₁) (t : Run step s₁ ls s') : Run step s (l :: ls) s'

namespace Run

variable {step : State → Label → State → Prop} {s s₁ s' : State} {l : Label} {ls ls' : List Label}

theorem one (h : step s l s') : Run step s [l] s' :=
  .more h (.refl _)

theorem trans (h₁ : Run step s ls s₁) (h₂ : Run step s₁ ls' s') :
    Run step s (ls ++ ls') s' := by
  induction h₁ with
  | refl => exact h₂
  | more h _ ih => exact .more h (ih h₂)

/-- A run of a concatenation splits at the seam. -/
theorem split (h : Run step s (ls ++ ls') s') :
    ∃ s₁, Run step s ls s₁ ∧ Run step s₁ ls' s' := by
  induction ls generalizing s with
  | nil => exact ⟨s, .refl s, h⟩
  | cons l ls ih =>
      cases h with
      | more h t =>
          obtain ⟨s₁, h₁, h₂⟩ := ih t
          exact ⟨s₁, .more h h₁, h₂⟩

/-- **The invariant rule.**  What every step labelled within `P` preserves holds at the end of
a run labelled within `P`. -/
theorem inv {I : State → Prop} {P : Label → Prop}
    (hstep : ∀ {s l s'}, P l → I s → step s l s' → I s')
    (h : Run step s ls s') (hP : ∀ l ∈ ls, P l) (hs : I s) : I s' := by
  induction h with
  | refl => exact hs
  | more h _ ih =>
      exact ih (fun l hl => hP l (List.mem_cons_of_mem _ hl))
        (hstep (hP _ List.mem_cons_self) hs h)

/-- **The history rule.**  What every step preserves, of a state and of the labels that led to it,
holds at the end of a run. -/
theorem inv_history {I : List Label → State → Prop}
    (hstep : ∀ {ls s l s'}, I ls s → step s l s' → I (ls ++ [l]) s')
    (h : Run step s ls s') : ∀ {ls₀ : List Label}, I ls₀ s → I (ls₀ ++ ls) s' := by
  induction h with
  | refl => exact fun hs => by rwa [List.append_nil]
  | more h _ ih => exact fun hs => by simpa using ih (hstep hs h)

/-- A run whose steps are steps of another relation, under an invariant, is a run of that. -/
theorem map {Label' : Type*} {step' : State → Label' → State → Prop} {I : State → Prop}
    {P : Label → Prop} {f : Label → Label'}
    (hstep : ∀ {s l s'}, P l → I s → step s l s' → step' s (f l) s' ∧ I s')
    (h : Run step s ls s') (hP : ∀ l ∈ ls, P l) (hs : I s) : Run step' s (ls.map f) s' := by
  induction h with
  | refl => exact .refl _
  | more h _ ih =>
      obtain ⟨h', hI⟩ := hstep (hP _ List.mem_cons_self) hs h
      exact .more h' (ih (fun l hl => hP l (List.mem_cons_of_mem _ hl)) hI)

/-- **The projection rule.**  Where each step is seen through `r` as a step of another relation, or
not seen at all, a run is seen as a run of that relation, on the labels that are seen. -/
theorem project {State' Label' : Type*} {step' : State' → Label' → State' → Prop}
    {I : State → Prop} {f : Label → Option Label'} {r : State → State'}
    (hinv : ∀ {s l s'}, I s → step s l s' → I s')
    (hseen : ∀ {s l s' l'}, I s → step s l s' → f l = some l' → step' (r s) l' (r s'))
    (hunseen : ∀ {s l s'}, I s → step s l s' → f l = none → r s' = r s)
    (h : Run step s ls s') (hs : I s) : Run step' (r s) (ls.filterMap f) (r s') := by
  induction h with
  | refl => exact .refl _
  | @more s s₁ s' l ls h _ ih =>
      have hrest := ih (hinv hs h)
      cases hl : f l with
      | some l' => rw [List.filterMap_cons_some hl]; exact .more (hseen hs h hl) hrest
      | none => rwa [List.filterMap_cons_none hl, ← hunseen hs h hl]

/-- **The last-write rule.**  If each step leaves in `r` what its label says, and `r` as it was
where the label says nothing, a run leaves what the last label to say something says. -/
theorem latest {V : Type*} {I : State → Prop} {P : Label → Prop} {r : State → V}
    {e : Label → Option V}
    (hstep : ∀ {s l s'}, P l → I s → step s l s' → I s' ∧ r s' = (e l).getD (r s))
    (h : Run step s ls s') (hP : ∀ l ∈ ls, P l) (hs : I s) :
    r s' = (ls.reverse.findSome? e).getD (r s) := by
  induction h with
  | refl => rfl
  | @more s s₁ s' l ls h _ ih =>
      obtain ⟨hI, hr⟩ := hstep (hP l List.mem_cons_self) hs h
      rw [ih (fun l hl => hP l (List.mem_cons_of_mem _ hl)) hI, hr, List.reverse_cons,
        List.findSome?_append, List.findSome?_singleton]
      cases ls.reverse.findSome? e <;> rfl

end Run

/-- `P` holds of every step a run labelled `ls` can take from `s`. -/
def Along (step : State → Label → State → Prop) (P : State → Label → State → Prop) :
    State → List Label → Prop
  | _, [] => True
  | s, l :: ls => ∀ s₁, step s l s₁ → P s l s₁ ∧ Along step P s₁ ls

namespace Along

variable {step : State → Label → State → Prop} {P Q : State → Label → State → Prop}

theorem and : ∀ {ls : List Label} {s : State}, Along step P s ls → Along step Q s ls →
    Along step (fun s l s' => P s l s' ∧ Q s l s') s ls
  | [], _, _, _ => trivial
  | _ :: _, _, hP, hQ => fun s₁ h =>
      ⟨⟨(hP s₁ h).1, (hQ s₁ h).1⟩, and (hP s₁ h).2 (hQ s₁ h).2⟩

/-- **The safety rule.**  If an invariant and the side condition `Q` give `P` and the invariant
again, `P` holds along every run along which `Q` does. -/
theorem of_inv {I : State → Prop}
    (hstep : ∀ {s l s'}, I s → Q s l s' → step s l s' → P s l s' ∧ I s') :
    ∀ {ls : List Label} {s : State}, I s → Along step Q s ls → Along step P s ls
  | [], _, _, _ => trivial
  | _ :: _, _, hI, hQ => fun s₁ h =>
      have ⟨hP, hI'⟩ := hstep hI (hQ s₁ h).1 h
      ⟨hP, of_inv hstep hI' (hQ s₁ h).2⟩

/-- **The exactness rule.**  If under an invariant `P` and `Q` are the same of every step, and the
steps of which they hold keep the invariant, `P` holds along exactly the runs along which `Q`
does. -/
theorem iff_of_inv {I : State → Prop}
    (hstep : ∀ {s l s'}, I s → step s l s' → (P s l s' ↔ Q s l s') ∧ (Q s l s' → I s')) :
    ∀ {ls : List Label} {s : State}, I s → (Along step P s ls ↔ Along step Q s ls)
  | [], _, _ => Iff.rfl
  | _ :: _, _, hI => forall_congr' fun _ => forall_congr' fun h => by
      obtain ⟨hiff, hI'⟩ := hstep hI h
      rw [hiff]
      exact and_congr_right fun hQ => iff_of_inv hstep (hI' hQ)

/-- `P` holds of the step taken after any run within `Along step P`. -/
theorem last {s s₁ s' : State} {l : Label} {ls : List Label}
    (hA : Along step P s (ls ++ [l])) (h : Run step s ls s₁) (hl : step s₁ l s') :
    P s₁ l s' := by
  induction h with
  | refl => exact (hA s' hl).1
  | more h _ ih => exact ih (hA _ h).2 hl

end Along

end ZeptoOS.Lib
