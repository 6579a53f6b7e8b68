import Mathlib.Data.List.Basic

/-!
# Lib — Path

The components of a path: the non-empty runs of characters between separators.  A separator splits
them (`components_append`), and a prefix without separators is in the first one
(`components_prefix`).
-/

namespace ZeptoOS.Lib

variable {B : Type*} [DecidableEq B]

/-- `t` in front of `ts`, if it is not empty. -/
def consNonempty (t : List B) (ts : List (List B)) : List (List B) :=
  if t = [] then ts else t :: ts

/-- What stands before the first separator, and the components behind it. -/
def splitPath (sep : B) : List B → List B × List (List B)
  | [] => ([], [])
  | c :: cs =>
      if c = sep then ([], consNonempty (splitPath sep cs).1 (splitPath sep cs).2)
      else (c :: (splitPath sep cs).1, (splitPath sep cs).2)

/-- The components of a path. -/
def components (sep : B) (p : List B) : List (List B) :=
  consNonempty (splitPath sep p).1 (splitPath sep p).2

variable {sep : B} {p q t : List B}

omit [DecidableEq B] in
theorem consNonempty_append (t : List B) (ts us : List (List B)) :
    consNonempty t (ts ++ us) = consNonempty t ts ++ us := by
  rw [consNonempty, consNonempty]
  split <;> rfl

theorem components_sep (p : List B) : components sep (sep :: p) = components sep p := by
  rw [components, splitPath, if_pos rfl]
  exact if_pos rfl

theorem splitPath_append (p q : List B) :
    splitPath sep (p ++ sep :: q) =
      ((splitPath sep p).1, (splitPath sep p).2 ++ components sep q) := by
  induction p with
  | nil => exact if_pos rfl
  | cons c p ih =>
      rw [List.cons_append, splitPath, ih, splitPath]
      split
      · rw [consNonempty_append]
      · rfl

/-- **A separator splits the components.** -/
theorem components_append (p q : List B) :
    components sep (p ++ sep :: q) = components sep p ++ components sep q := by
  rw [components, splitPath_append, consNonempty_append, ← components]

/-- Separators in front add no component. -/
theorem components_replicate (n : ℕ) (p : List B) :
    components sep (List.replicate n sep ++ p) = components sep p := by
  induction n with
  | zero => rfl
  | succ n ih => rw [List.replicate_succ, List.cons_append, components_sep, ih]

theorem components_all_sep (n : ℕ) : components sep (List.replicate n sep) = [] := by
  have h : components sep (List.replicate n sep ++ []) = components sep [] :=
    components_replicate n []
  rw [List.append_nil] at h
  exact h

/-- Nor do separators at the end. -/
theorem components_append_replicate (p : List B) (n : ℕ) :
    components sep (p ++ List.replicate n sep) = components sep p := by
  cases n with
  | zero => rw [List.replicate_zero, List.append_nil]
  | succ n =>
      rw [List.replicate_succ, components_append, components_all_sep, List.append_nil]

/-- Nor do more of them beside one. -/
theorem components_append_more (p : List B) (n : ℕ) (q : List B) :
    components sep (p ++ List.replicate (n + 1) sep ++ q) = components sep (p ++ sep :: q) := by
  rw [List.append_assoc, List.replicate_succ, List.cons_append, components_append,
    components_append, components_replicate]

/-- A prefix without separators is in front of the first separator. -/
theorem splitPath_prefix (ht : sep ∉ t) (p : List B) :
    splitPath sep (t ++ p) = (t ++ (splitPath sep p).1, (splitPath sep p).2) := by
  induction t with
  | nil => rfl
  | cons c t ih =>
      have hc : c ≠ sep := fun e => ht (e ▸ List.mem_cons_self)
      rw [List.cons_append, splitPath, if_neg hc, ih fun h => ht (List.mem_cons_of_mem _ h)]
      rfl

theorem components_token (ht : sep ∉ t) : components sep t = consNonempty t [] := by
  have hsplit := splitPath_prefix ht []
  rw [List.append_nil] at hsplit
  rw [components, hsplit, splitPath, List.append_nil]

theorem components_prefix (ht : sep ∉ t) (hne : t ≠ []) (p : List B) :
    ∃ c ∈ components sep (t ++ p), t.length ≤ c.length := by
  refine ⟨t ++ (splitPath sep p).1, ?_, ?_⟩
  · rw [components, splitPath_prefix ht, consNonempty, if_neg (by simp [hne])]
    exact List.mem_cons_self
  · rw [List.length_append]
    exact Nat.le_add_right _ _

end ZeptoOS.Lib
