import ZeptoOS.Lib.Spaces

/-!
# Lib — Tlb

A cache of translations beside the tables that decide them.  The processor enters what a walk of the
tables gives and drops what it likes, at any time; an operation changes the tables, and drops the
entries that it says it drops.

Where every operation keeps the translations whose entries it does not drop, no entry is stale
(`Coherent.run`).  For given operations that is exact: no entry is stale, whatever the processor
enters and drops between them, exactly if each of them does so (`coherent_iff`).

The second half is about the walks of radix tables: what a walk reads (`Format.trail`) is kept by an
operation on another leaf (`Inv.trail_keeps`).
-/

namespace ZeptoOS.Lib

/-! ### The cache -/

/-- A system, and the translations cached of it. -/
structure Cached (S V E : Type*) where
  sys : S
  tlb : V → Option E

inductive TlbEvent (Op V : Type*) where
  | call (op : Op)
  | fill (v : V)
  | evict (v : V)

/-- How a system steps, what a walk for an address gives in it, and the addresses whose entries an
operation drops. -/
structure Mmu (S Op V E : Type*) where
  step : S → Op → S → Prop
  walk : S → V → Option E
  Drops : S → Op → V → Prop

/-- The operations among the events. -/
def calls {Op V : Type*} (events : List (TlbEvent Op V)) : List Op :=
  events.filterMap fun
    | .call op => some op
    | _ => none

namespace Mmu

variable {S Op V E : Type*} [DecidableEq V] (M : Mmu S Op V E)

/-- An event. -/
def CachedStep (c : Cached S V E) : TlbEvent Op V → Cached S V E → Prop
  | .call op, c' => M.step c.sys op c'.sys ∧
      ∀ v, (M.Drops c.sys op v → c'.tlb v = none) ∧ (¬ M.Drops c.sys op v → c'.tlb v = c.tlb v)
  | .fill v, c' => ∃ e, M.walk c.sys v = some e ∧
      c' = { c with tlb := Function.update c.tlb v (some e) }
  | .evict v, c' => c' = { c with tlb := Function.update c.tlb v none }

omit [DecidableEq V] in
/-- No entry is stale. -/
def Coherent (c : Cached S V E) : Prop := ∀ v e, c.tlb v = some e → M.walk c.sys v = some e

omit [DecidableEq V] in
/-- The operation keeps the translations whose entries it does not drop. -/
def Keeps (s : S) (op : Op) (s' : S) : Prop :=
  ∀ v e, M.walk s v = some e → ¬ M.Drops s op v → M.walk s' v = some e

variable {M} {c c' : Cached S V E} {s s' : S}

/-- An entry as a walk gives it, or none, is not stale. -/
theorem Coherent.update (hc : M.Coherent c) {v : V} {o : Option E}
    (ho : ∀ e, o = some e → M.walk c.sys v = some e) :
    M.Coherent { c with tlb := Function.update c.tlb v o } := by
  intro v' e he
  dsimp only at he ⊢
  by_cases hv : v' = v
  · subst hv
    rw [Function.update_self] at he
    exact ho e he
  · rw [Function.update_of_ne hv] at he
    exact hc v' e he

/-- **One event** leaves no stale entry. -/
theorem Coherent.step {l : TlbEvent Op V} (hc : M.Coherent c) (h : M.CachedStep c l c')
    (hkeeps : ∀ op, l = .call op → M.Keeps c.sys op c'.sys) : M.Coherent c' := by
  cases l with
  | call op =>
      obtain ⟨-, htlb⟩ := h
      intro v e he
      by_cases hdrop : M.Drops c.sys op v
      · rw [(htlb v).1 hdrop] at he
        cases he
      · rw [(htlb v).2 hdrop] at he
        exact hkeeps op rfl v e (hc v e he) hdrop
  | fill v =>
      obtain ⟨e, hwalk, rfl⟩ := h
      exact hc.update fun e' he' => Option.some.inj he' ▸ hwalk
  | evict v =>
      obtain rfl := h
      exact hc.update fun e' he' => by cases he'

/-- **The safety rule.** -/
theorem Coherent.run {I : S → Prop} {P : Op → Prop}
    (hop : ∀ {s op s'}, P op → I s → M.step s op s' → M.Keeps s op s' ∧ I s')
    {events : List (TlbEvent Op V)} (h : Run M.CachedStep c events c')
    (hP : ∀ op ∈ calls events, P op) (hI : I c.sys) (hc : M.Coherent c) :
    M.Coherent c' := by
  induction h with
  | refl => exact hc
  | @more c c₁ c' l events h _ ih =>
      have hnext : (∀ op, l = .call op → M.Keeps c.sys op c₁.sys) ∧ I c₁.sys := by
        cases l with
        | call op =>
            obtain ⟨hkeeps, hI₁⟩ := hop (hP op List.mem_cons_self) hI h.1
            refine ⟨fun op' e => ?_, hI₁⟩
            cases e
            exact hkeeps
        | fill v =>
            obtain ⟨e, -, rfl⟩ := h
            exact ⟨fun _ e => (by cases e), hI⟩
        | evict v =>
            obtain rfl := h
            exact ⟨fun _ e => (by cases e), hI⟩
      refine ih (fun op hop' => hP op ?_) hnext.2 (hc.step h hnext.1)
      rw [calls, List.filterMap_cons]
      split
      · exact hop'
      · exact List.mem_cons_of_mem _ hop'

/-- No entry is stale at any time in a run of the operations `ops`, whatever the processor enters
and drops between them. -/
def AlwaysCoherent (M : Mmu S Op V E) (c : Cached S V E) (ops : List Op) : Prop :=
  ∀ events c', calls events <+: ops → Run M.CachedStep c events c' → M.Coherent c'

omit [DecidableEq V] in
/-- The cache right after an operation. -/
theorem exists_after (c : Cached S V E) (op : Op) :
    ∃ tlb : V → Option E, ∀ v, (M.Drops c.sys op v → tlb v = none) ∧
      (¬ M.Drops c.sys op v → tlb v = c.tlb v) := by
  classical
  refine ⟨fun v => if M.Drops c.sys op v then none else c.tlb v, fun v => ⟨fun h => ?_, ?_⟩⟩
  · exact if_pos h
  · exact fun h => if_neg h

/-- **The exactness rule.** -/
theorem coherent_iff {ops : List Op} (hc : M.Coherent c) :
    M.AlwaysCoherent c ops ↔ Along M.step M.Keeps c.sys ops := by
  constructor
  · clear hc
    induction ops generalizing c with
    | nil => exact fun _ => trivial
    | cons op ops ih =>
        intro hall s₁ hstep
        obtain ⟨tlb, htlb⟩ := exists_after (M := M) c op
        constructor
        · -- the processor enters the translation just before the operation
          intro v e hwalk hkept
          let filled : Cached S V E := { c with tlb := Function.update c.tlb v (some e) }
          obtain ⟨tlb', htlb'⟩ := exists_after (M := M) filled op
          have hrun : Run M.CachedStep c [.fill v, .call op] ⟨s₁, tlb'⟩ :=
            .more ⟨e, hwalk, rfl⟩ (.one ⟨hstep, htlb'⟩)
          have hprefix : calls [.fill v, .call op] <+: op :: ops := ⟨ops, rfl⟩
          refine hall _ _ hprefix hrun v e ?_
          exact ((htlb' v).2 hkept).trans (Function.update_self ..)
        · refine ih (c := ⟨s₁, tlb⟩) fun events c' hprefix hrun => ?_
          have hcons : calls (.call op :: events) <+: op :: ops :=
            List.cons_prefix_cons.mpr ⟨rfl, hprefix⟩
          exact hall _ _ hcons (.more ⟨hstep, htlb⟩ hrun)
  · intro halong events c' hprefix hrun
    induction hrun generalizing ops with
    | refl => exact hc
    | @more c c₁ c' l events h _ ih =>
        cases l with
        | call op =>
            obtain ⟨rest, rfl⟩ := hprefix
            obtain ⟨hkeeps, hrest⟩ := halong c₁.sys h.1
            refine ih (hc.step h fun op' e => ?_) hrest ⟨rest, rfl⟩
            cases e
            exact hkeeps
        | fill v =>
            have hsys : c₁.sys = c.sys := by
              obtain ⟨e, -, rfl⟩ := h
              rfl
            refine ih (hc.step h fun op' e => ?_) (hsys ▸ halong) hprefix
            cases e
        | evict v =>
            have hsys : c₁.sys = c.sys := by
              obtain rfl := h
              rfl
            refine ih (hc.step h fun op' e => ?_) (hsys ▸ halong) hprefix
            cases e

end Mmu

/-! ### Walks of radix tables -/

variable {A W P I S : Type*}

/-- The entries that a walk for `is`, `j` below `p` reads, down to a leaf or a large entry; none
where one is absent. -/
def Format.trail (F : Format A W P I) (m : Store A W) (p : P) : List I → I → Option (List W)
  | [], j => if F.present (F.entry m p j) then some [F.entry m p j] else none
  | i :: is, j =>
      if F.present (F.entry m p i) then
        if F.large (F.entry m p i) then some [F.entry m p i]
        else (trail F m (F.target (F.entry m p i)) is j).map (F.entry m p i :: ·)
      else none

section Trail

variable [DecidableEq A] [DecidableEq P] {F : Format A W P I} {B : Pool S P} {depth : ℕ}
  {Foreign : List I → Prop} {c c' : P → Option (List I × P)} {s s' : Spaces A W P S}
  {op : SpaceOp P I W}

/-- An operation on another leaf keeps the entry of a leaf. -/
theorem Inv.leaf_keeps [DecidableEq I] (hI : Inv F B depth Foreign c s)
    (hf : op.Fits depth Foreign) (h : s.step F B op = some s') {q : P} {x : List I × P}
    (hq : c q = some x) (hlen : x.1.length + 1 = depth) {k : I}
    (hother : op.word F.zero x.1 k = none) :
    F.entry s'.heap.mem q k = F.entry s.heap.mem q k := by
  have hne : ∀ {is : List I} {j : I} {w : W}, (if (is, j) = (x.1, k) then some w else none) = none →
      (x.1 ++ [], k) ≠ (is, j) := by
    intro is j w hnone e
    rw [List.append_nil] at e
    rw [if_pos e.symm] at hnone
    cases hnone
  have hm : (⟨depth, s.base, Foreign⟩ : Plan I P).Managed x.1 [] := trivial
  cases op with
  | create =>
      obtain ⟨c', q', h', rfl, -, hC⟩ := hI.create h
      exact hC.frame k hq
  | map p is j w =>
      obtain ⟨c', h', -, rfl, hw⟩ := hI.map hf h
      exact hw.other hq hm (by simpa using hlen) (hne hother)
  | unmap p is j =>
      obtain ⟨h', -, rfl, hw⟩ := hI.unmap hf h
      exact hw.other hq hm (by simpa using hlen) (hne hother)

/-- **An operation on another leaf** keeps what a walk reads. -/
theorem Inv.trail_keeps [DecidableEq I] (hI : Inv F B depth Foreign c s)
    (K : Kept F depth Foreign c s c' s') (hf : op.Fits depth Foreign)
    (h : s.step F B op = some s') {js : List I} {k : I} :
    ∀ {q : P} {x : List I × P} {es : List W}, c q = some x →
      (⟨depth, s.base, Foreign⟩ : Plan I P).Managed x.1 js → x.1.length + js.length + 1 = depth →
      op.word F.zero (x.1 ++ js) k = none → F.trail s.heap.mem q js k = some es →
      F.trail s'.heap.mem q js k = some es := by
  induction js with
  | nil =>
      intro q x es hq _ hlen hother htrail
      rw [List.append_nil] at hother
      rw [Format.trail, hI.leaf_keeps hf h hq (by simpa using hlen) hother]
      exact htrail
  | cons j js ih =>
      intro q x es hq hm hlen hother htrail
      rw [List.length_cons] at hlen
      rw [Format.trail] at htrail ⊢
      split at htrail
      · rename_i hpr
        obtain ⟨hlarge, u, ht, -⟩ := hI.typed.edge (i := j) hq (by simp only; omega) hm.1 hpr
        have he := K.entry j hq (by omega) hpr
        rw [he, if_pos hpr]
        rw [if_neg (by rw [hlarge]; exact Bool.false_ne_true)] at htrail ⊢
        obtain ⟨rest, hrest, rfl⟩ := Option.map_eq_some_iff.mp htrail
        rw [ih ht hm.2 (by simp; omega) (by simpa using hother) hrest, Option.map_some]
      · cases htrail

end Trail

end ZeptoOS.Lib
