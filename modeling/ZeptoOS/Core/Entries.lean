import ZeptoOS.Core.Switch
import ZeptoOS.I386.Tables
import ZeptoOS.X64.Tables

/-!
# Core — Entries

How the kernel is entered and left while it runs: the tables of both targets, over any run of the
scheduler.

`kernel_entered_by_stubs`: the three stubs are the only way in, in ring 0 and with interrupts
masked; an interrupt in user mode finds the top of the kernel stack of the current task, and pushes
there what `enter` of `Core/Irq` begins with.  Everything else that comes up, an exception above
all, shuts the processor down: the kernel has no handler for any.
-/

namespace ZeptoOS.Core
open Lib Lib.Protection

/-- Where a program in user mode is, for the processor. -/
def Context.point {R : Type} {w : ℕ} (c : Context R w) : Point :=
  ⟨c.ip.toNat, c.cs.toNat, c.flags.toNat, c.sp.toNat, c.ss.toNat⟩

/-- The interrupts of the timer and the keyboard, and the system call. -/
def FromUser (v : ℕ) (cause : Cause) : Prop :=
  (v = 32 ∨ v = 33) ∧ cause = .external ∨ v = 0x80 ∧ cause = .software

/-- The ways into the kernel and out of it, in the state `k`. -/
structure EnteredByStubs {R : Type} {w : ℕ} (A : Arch R w) {M : Mode} (S : Symbols M)
    (TT : TaskTable) (T : Tables) (k : TableState) : Prop where
  /-- Whatever comes up, wherever a program is. -/
  serve : ∀ p v cause, T.serve M k.mem p v cause = S.entered k.sched.tssStack p v cause
  /-- In user mode, on the stack of the current task. -/
  user : ∀ (c : Context R w) v cause i, c.cs = 0x1B → FromUser v cause →
    k.sched.currentTask = some i → ∃ e, T.serve M k.mem c.point v cause = some e ∧
      S.stub v = some e.ip ∧ e.cs = 0x08 ∧ e.masks = true ∧ e.sp = TT.kernelStackTop i ∧
      e.pushed.map (BitVec.ofNat w) = c.hardwareFrame ∧
      ∀ words, enter A c ⟨words, k.sched.tssStack⟩ =
        (let s := Stack.pushAll A.wordBytes ⟨words, e.sp⟩ (e.pushed.map (BitVec.ofNat w))
         Stack.pushAll A.wordBytes s (A.pushes.map (c.pushed s.sp)))
  /-- Back to user mode. -/
  leave : ∀ c : Context R w, c.cs = 0x1B → c.ss = 0x23 → M.Canonical c.ip.toNat →
    T.returnTo M k.mem 0 c.point = .ok c.point

section

variable {R : Type} {w : ℕ} {A : Arch R w} {M : Mode} {S : Symbols M} {TT : TaskTable}
  {T : Tables} {k : TableState} {mem : Bytes}

theorem Symbols.entered_user (stack : ℕ) {c : Context R w} {v : ℕ} {cause : Cause}
    (hcs : c.point.cpl = 3) (h : FromUser v cause) : ∃ e,
      S.entered stack c.point v cause = some e ∧ S.stub v = some e.ip ∧ e.cs = 0x08 ∧
      e.masks = true ∧ e.sp = (if M = .long then stack - stack % 16 else stack) ∧
      e.pushed = [c.ss.toNat, c.sp.toNat, c.flags.toNat, c.cs.toNat, c.ip.toNat] := by
  have hstub : ∃ stub, S.stub v = some stub := by
    rcases h with ⟨rfl | rfl, -⟩ | ⟨rfl, -⟩
    exacts [⟨_, rfl⟩, ⟨_, rfl⟩, ⟨_, rfl⟩]
  have hcall : ¬ (cause = .software ∧ callable v < c.point.cpl) := by
    rintro ⟨rfl, hlt⟩
    rcases h with ⟨-, h⟩ | ⟨rfl, -⟩
    · cases h
    · rw [hcs] at hlt
      exact Nat.lt_irrefl 3 hlt
  have hcode : cause.code = none := by
    rcases h with ⟨-, rfl⟩ | ⟨-, rfl⟩ <;> rfl
  obtain ⟨stub, hstub⟩ := hstub
  refine ⟨_, S.entered_some hstub hcall, hstub, rfl, rfl, ?_, ?_⟩
  · simp only [hcs]
    rfl
  · simp only [hcs, hcode]
    rw [if_pos (.inr (by decide))]
    exact List.append_nil _

/-- What the kept tables give. -/
theorem Kept.enteredByStubs (h : Kept S TT T k) (hw : w = 8 * M.wordBytes)
    (halign : A.align = if M = .long then 16 else 1) : EnteredByStubs A S TT T k := by
  have hlit : ∀ n < 256, (BitVec.ofNat w n).toNat = n := by
    intro n hn
    have hpow : 256 ≤ 2 ^ w := by
      subst hw
      cases M <;> decide
    rw [BitVec.toNat_ofNat, Nat.mod_eq_of_lt (by omega)]
  have hcpl : ∀ c : Context R w, c.cs = 0x1B → c.point.cpl = 3 := by
    intro c hcs
    rw [Point.cpl, Context.point, hcs]
    exact congrArg (· % 4) (hlit 0x1B (by decide))
  refine ⟨h.installed.serve_installed, fun c v cause i hcs hv hi => ?_, fun c hcs hss hip => ?_⟩
  · obtain ⟨e, hserve, hstub, hcs', hmasks, hsp, hpushed⟩ :=
      S.entered_user k.sched.tssStack (hcpl c hcs) hv
    have htop := h.current i hi
    have haligned := TT.aligned_kernelStackTop A i
    have hesp : e.sp = TT.kernelStackTop i := by
      rw [hsp, htop]
      rw [halign] at haligned
      split
      · rename_i hM
        rw [if_pos hM] at haligned
        rw [haligned, Nat.sub_zero]
      · rfl
    have hframe : e.pushed.map (BitVec.ofNat w) = c.hardwareFrame := by
      simp [hpushed, Context.hardwareFrame]
    refine ⟨e, (h.installed.serve_installed _ _ _).trans hserve, hstub, hcs', hmasks, hesp, hframe,
      fun words => ?_⟩
    rw [enter, hframe, hesp, htop, haligned]
    rfl
  · have hcs' : c.cs.toNat = 0x1B := hcs ▸ hlit 0x1B (by decide)
    have hss' : c.ss.toNat = 0x23 := hss ▸ hlit 0x23 (by decide)
    refine h.installed.returnTo_user hcs' hss' hip fun hM => ?_
    have hlt := c.ip.isLt
    subst hM hw
    exact hlt

/-- The tables are kept over a run. -/
theorem Installed.run (h : Installed M S T 0 mem) (hlow : TT.Low) {s : Sched}
    {es : List TableEvent}
    (hrun : Run (TableStep A S TT) ⟨schedulerInit TT { s with tssStack := 0 }, mem⟩ es k) :
    Kept S TT T k := by
  have hinit : Kept S TT T ⟨schedulerInit TT { s with tssStack := 0 }, mem⟩ :=
    ⟨h, Nat.zero_le _, fun c hc => by cases hc⟩
  exact hrun.inv (P := fun _ => True) (fun _ hk hstep => hk.step hlow hstep) (fun _ _ => trivial)
    hinit

end

/-- **The stubs are the only way into the kernel.**  On both targets, wherever the linker put the
tables, the stubs and the stacks, and whatever the memory had: after any run of the scheduler. -/
theorem kernel_entered_by_stubs :
    (∀ S T mem, ∃ T' mem', X64.installTables S T mem = .ok (T', mem') ∧
      ∀ TT : TaskTable, TT.Low → ∀ (s : Sched) es k,
        Run (TableStep x64 S TT) ⟨schedulerInit TT { s with tssStack := 0 }, mem'⟩ es k →
          EnteredByStubs x64 S TT T' k) ∧
    (∀ S T mem, ∃ T' mem', I386.installTables S T mem = .ok (T', mem') ∧
      ∀ TT : TaskTable, TT.Low → ∀ (s : Sched) es k,
        Run (TableStep i386 S TT) ⟨schedulerInit TT { s with tssStack := 0 }, mem'⟩ es k →
          EnteredByStubs i386 S TT T' k) := by
  refine ⟨fun S T mem => ?_, fun S T mem => ?_⟩
  · obtain ⟨T', mem', hinstall, h⟩ := X64.install_eq S T mem
    exact ⟨T', mem', hinstall, fun TT hlow s es k hrun =>
      (h.run hlow hrun).enteredByStubs rfl rfl⟩
  · obtain ⟨T', mem', hinstall, h⟩ := I386.install_eq S T mem
    exact ⟨T', mem', hinstall, fun TT hlow s es k hrun =>
      (h.run hlow hrun).enteredByStubs rfl rfl⟩

/-- The first task runs: a tick goes to the top of its stack, and a page fault is the end. -/
theorem kernel_entered_by_stubs_first_task : ∃ (S : Symbols .long) (T : Tables) (TT : TaskTable)
    (k : TableState) (c : Context Reg64 64) (e : Entered), k.sched.currentTask = some 0 ∧
      c.cs = 0x1B ∧ S.stub 32 = some 0x100100 ∧
      T.serve .long k.mem c.point 32 .external = some e ∧ e.ip = 0x100100 ∧
      e.sp = TT.kernelStackTop 0 ∧ T.serve .long k.mem c.point 14 (.exception (some 4)) = none := by
  let S : Symbols .long := ⟨0x200000, 0x200100, 0x200200, 0x201000, 0x202000, 0x100100, 0x100200,
    0x100300, by decide, by decide, by decide, by decide, by decide⟩
  let TT : TaskTable := ⟨10, 0x300000, rfl⟩
  let idle : Sched := ⟨fun _ => ⟨0, 0, false⟩, 0, none, 0⟩
  let c : Context Reg64 64 := ⟨fun _ => 7, 0x800123, 0x202, 0x301000, 0x1B, 0x23⟩
  obtain ⟨T, mem, -, hrun⟩ := kernel_entered_by_stubs.1 S ⟨0, 0, 0, 0, 0, 0⟩ fun _ => 0xCC
  have hstubs := hrun TT (by decide) idle _ _
    (.more (.create (fun _ => 0) 0x800000) (.one (.schedule 0x90000)))
  have hcurrent : (schedule TT (taskCreateUser x64 TT (schedulerInit TT idle) (fun _ => 0)
      0x800000).1 0x90000).2.currentTask = some 0 := by decide +kernel
  obtain ⟨e, hserve, hip, -, -, hsp, -⟩ := hstubs.user c 32 .external 0 rfl (.inl ⟨.inl rfl, rfl⟩)
    hcurrent
  exact ⟨S, T, TT, _, c, e, hcurrent, rfl, rfl, hserve, (Option.some.inj hip).symm, hsp,
    hstubs.serve c.point 14 (.exception (some 4))⟩

end ZeptoOS.Core
