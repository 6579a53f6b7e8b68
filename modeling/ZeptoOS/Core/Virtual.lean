import ZeptoOS.Core.Exit
import ZeptoOS.Core.Switch
import ZeptoOS.Syscall.Handler

/-!
# Core — Virtual

On x86_64 each task runs as on a processor of its own, as far as its `Context` goes.  `TaskStep` is
one event of the machine with all its tasks: a task computes, makes a system call, exits, or is
interrupted by the timer or the keyboard.
`Alone` is one step of a single program on a processor that nothing interrupts, where a system call
is an instruction that sets one register.  `Machine.view` is what the machine has of one task, in
the processor or in the frame on its kernel stack.

`TaskStep.seen` says that an event of a task is a step of `Alone` in its view, and
`TaskStep.unseen` that it is none in the views of the others.  So any run of the machine is, for
each task, a run of that task alone (`tasks_run_alone`).

The steps are those of either target, but on i386 they leave out `ds`, `es`, `fs` and `gs`, which no
stub keeps for a task and without which it does not go on: a task sees there what interrupts and
other tasks left, and one that does not load `ds` again faults at its next interrupt
(`I386/Segments`).  So of i386 only the general registers are told of
(`general_registers_run_alone`).

A program is not kept from writing to the kernel stacks, which lie beside the user stacks; here it
does not.  Faults are no events either.
-/

namespace ZeptoOS.Core
open Lib

/-- `syscall_stub` and `struct regs` of a target. -/
structure Calls {R : Type} {w : ℕ} (A : Arch R w) where
  /-- How many segment registers the stub pushes after what `irq0_stub` pushes too. -/
  segments : ℕ
  /-- `struct regs`, up to the last field `syscall_handler` uses; `none` is one that is no general
  register, or the stack pointer. -/
  fields : List (Option R)
  number : R
  arg1 : R
  arg2 : R
  arg3 : R
  fields_eq : fields = List.replicate segments none ++ A.pops
  nodup : A.pops.Nodup
  fits : A.wordBytes * segments + A.frameBytes ≤ 4096

/-- `kernel/x64/syscall_stub.s` and `kernel/x64/syscall.c`. -/
def x64Calls : Calls x64 where
  segments := 0
  fields := [.r15, .r14, .r13, .r12, .r11, .r10, .r9, .r8, .rdi, .rsi, .rbp, .rdx, .rcx, .rbx,
    .rax].map some
  number := .rax
  arg1 := .rdi
  arg2 := .rsi
  arg3 := .rdx
  fields_eq := by decide
  nodup := by decide
  fits := by decide

/-- `kernel/i386/syscall_stub.s` and `kernel/i386/syscall.c`: `ds`, `es`, `fs` and `gs` are pushed
after `pusha`. -/
def i386Calls : Calls i386 where
  segments := 4
  fields := [none, none, none, none, some .edi, some .esi, some .ebp, none, some .ebx, some .edx,
    some .ecx, some .eax]
  number := .eax
  arg1 := .ebx
  arg2 := .ecx
  arg3 := .edx
  fields_eq := by decide
  nodup := by decide
  fits := by decide

section

variable {R : Type} [DecidableEq R] {w : ℕ} {A : Arch R w}

/-- The address of a field of `struct regs`. -/
def Calls.field (C : Calls A) (sp : ℕ) (r : R) : ℕ :=
  sp + A.wordBytes * C.fields.idxOf (some r)

/-- What `syscall_handler` reads of its `struct regs`. -/
def Calls.readRegs (C : Calls A) (mem : ℕ → BitVec w) (sp : ℕ) : Syscall.Regs w :=
  ⟨mem (C.field sp C.number), mem (C.field sp C.arg1), mem (C.field sp C.arg2),
    mem (C.field sp C.arg3)⟩

/-- The registers a program makes a system call with. -/
def Calls.regsOf (C : Calls A) (c : Context R w) : Syscall.Regs w :=
  ⟨c.regs C.number, c.regs C.arg1, c.regs C.arg2, c.regs C.arg3⟩

/-- A system call in the context `c`, up to the call of `syscall_handler`; `segs` are the segment
registers. -/
def Calls.enter (_ : Calls A) (c : Context R w) (segs : List (BitVec w)) (s : Stack (BitVec w)) :
    Stack (BitVec w) :=
  Stack.pushAll A.wordBytes (Core.enter A c s) segs

/-- The way back from `syscall_handler`, which was called with `sp`. -/
def Calls.leave (C : Calls A) (mem : ℕ → BitVec w) (sp : ℕ) (regs : R → BitVec w) :
    Context R w :=
  Core.leave A mem (sp + A.wordBytes * C.segments) regs

/-! ### The machine -/

/-- What happens to the machine; `compute` says what the task is in next, and `call` what
`syscall_handler` reads and returns. -/
inductive TaskEvent (R : Type) (w : ℕ) where
  | kernel
  | create (i : ℕ) (entryPoint : BitVec w)
  | compute (i : ℕ) (cpu : Context R w)
  | tick
  | key
  | call (i : ℕ) (regs : Syscall.Regs w) (ret : BitVec w)
  | exit (i : ℕ) (regs : Syscall.Regs w)
  | stay (i : ℕ) (regs : Syscall.Regs w)

/-- One event.  Tasks are created by `kmain`, before it enables interrupts; the first tick
interrupts it.  A handler may write what it likes, but of the kernel stacks only the one it runs
on, below what was pushed there, and `syscall_handler` the field of its result. -/
inductive TaskStep (C : Calls A) (T : TaskTable) :
    Machine R w → TaskEvent R w → Machine R w → Prop where
  | kernel {m : Machine R w} {mem : ℕ → BitVec w} (cpu : Context R w)
      (hc : m.sched.currentTask = none) (hmem : ∀ i, KeepsStack T i m.mem mem) :
      TaskStep C T m .kernel ⟨m.sched, mem, cpu⟩
  | create {m : Machine R w} (entryPoint : BitVec w) (hc : m.sched.currentTask = none)
      (hlt : m.sched.taskCount < T.maxTasks) :
      TaskStep C T m (.create m.sched.taskCount entryPoint)
        ⟨(taskCreateUser A T m.sched m.mem entryPoint).1,
          (taskCreateUser A T m.sched m.mem entryPoint).2, m.cpu⟩
  | compute {m : Machine R w} {c : ℕ} {mem : ℕ → BitVec w} (cpu : Context R w)
      (hc : m.sched.currentTask = some c) (hmem : ∀ i ≠ c, KeepsStack T i m.mem mem) :
      TaskStep C T m (.compute c cpu) ⟨m.sched, mem, cpu⟩
  | boot {m : Machine R w} {sp ret : ℕ} {mem : ℕ → BitVec w} {s' : Sched} (regs : R → BitVec w)
      (hc : m.sched.currentTask = none) (hmem : ∀ i, KeepsStack T i m.mem mem)
      (h : schedule T m.sched sp = (ret, s')) :
      TaskStep C T m .tick ⟨s', mem, leave A mem ret regs⟩
  | tick {m : Machine R w} {c ret : ℕ} {st : Stack (BitVec w)} {mem : ℕ → BitVec w} {s' : Sched}
      (regs : R → BitVec w) (hc : m.sched.currentTask = some c)
      (henter : enter A m.cpu ⟨m.mem, m.sched.tssStack⟩ = st)
      (hmem : ∀ i ≠ c, KeepsStack T i st.mem mem)
      (hframe : ∀ a, st.sp ≤ a → a < m.sched.tssStack → mem a = st.mem a)
      (h : schedule T m.sched st.sp = (ret, s')) :
      TaskStep C T m .tick ⟨s', mem, leave A mem ret regs⟩
  | key {m : Machine R w} {c : ℕ} {st : Stack (BitVec w)} {mem : ℕ → BitVec w}
      (regs : R → BitVec w) (hc : m.sched.currentTask = some c)
      (henter : enter A m.cpu ⟨m.mem, m.sched.tssStack⟩ = st)
      (hmem : ∀ i ≠ c, KeepsStack T i st.mem mem)
      (hframe : ∀ a, st.sp ≤ a → a < m.sched.tssStack → mem a = st.mem a) :
      TaskStep C T m .key ⟨m.sched, mem, leave A mem st.sp regs⟩
  | call {m : Machine R w} {c : ℕ} {segs : List (BitVec w)} {st : Stack (BitVec w)}
      {mem : ℕ → BitVec w} (ret : BitVec w) (regs : R → BitVec w)
      (hc : m.sched.currentTask = some c) (hsegs : segs.length = C.segments)
      (henter : C.enter m.cpu segs ⟨m.mem, m.sched.tssStack⟩ = st)
      (hnumber : (C.readRegs st.mem st.sp).number.toNat ≠ 1)
      (hmem : ∀ i ≠ c, KeepsStack T i st.mem mem)
      (hframe : ∀ a, st.sp ≤ a → a < m.sched.tssStack →
        mem a = Function.update st.mem (C.field st.sp C.number) ret a) :
      TaskStep C T m (.call c (C.readRegs st.mem st.sp) ret)
        ⟨m.sched, mem, C.leave mem st.sp regs⟩
  | exit {m : Machine R w} {c sp ret : ℕ} {segs : List (BitVec w)} {st : Stack (BitVec w)}
      {mem : ℕ → BitVec w} {s' : Sched} (regs : R → BitVec w)
      (hc : m.sched.currentTask = some c) (hsegs : segs.length = C.segments)
      (henter : C.enter m.cpu segs ⟨m.mem, m.sched.tssStack⟩ = st)
      (hnumber : (C.readRegs st.mem st.sp).number.toNat = 1)
      (hmem : ∀ i ≠ c, KeepsStack T i st.mem mem) (hsp : T.Belongs c sp)
      (h : schedule T (taskExit m.sched) sp = (ret, s')) (hret : ret ≠ sp) :
      TaskStep C T m (.exit c (C.readRegs st.mem st.sp)) ⟨s', mem, leave A mem ret regs⟩
  -- `schedule` goes on with the caller: `task_exit` returns, and the system call
  | stay {m : Machine R w} {c sp : ℕ} {segs : List (BitVec w)} {st : Stack (BitVec w)}
      {mem : ℕ → BitVec w} {s' : Sched} (regs : R → BitVec w)
      (hc : m.sched.currentTask = some c) (hsegs : segs.length = C.segments)
      (henter : C.enter m.cpu segs ⟨m.mem, m.sched.tssStack⟩ = st)
      (hnumber : (C.readRegs st.mem st.sp).number.toNat = 1)
      (hmem : ∀ i ≠ c, KeepsStack T i st.mem mem)
      (hframe : ∀ a, st.sp ≤ a → a < m.sched.tssStack → mem a = st.mem a)
      (hsp : T.Belongs c sp) (h : schedule T (taskExit m.sched) sp = (sp, s')) :
      TaskStep C T m (.stay c (C.readRegs st.mem st.sp)) ⟨s', mem, C.leave mem st.sp regs⟩

/-! ### One task alone -/

/-- What a program does on a processor of its own. -/
inductive Act (R : Type) (w : ℕ) where
  | start (entryPoint : BitVec w)
  | compute (cpu : Context R w)
  | call (regs : Syscall.Regs w) (ret : BitVec w)
  | exit (regs : Syscall.Regs w)
  | stay (regs : Syscall.Regs w)

/-- One step of the program of slot `i`; there is none before it starts and after it exits. -/
inductive Alone (C : Calls A) (T : TaskTable) (i : ℕ) :
    Option (Context R w) → Act R w → Option (Context R w) → Prop where
  | start (entryPoint : BitVec w) :
      Alone C T i none (.start entryPoint) (some (firstContext T i entryPoint))
  | compute (c cpu : Context R w) : Alone C T i (some c) (.compute cpu) (some cpu)
  | call (c : Context R w) (ret : BitVec w) (h : (C.regsOf c).number.toNat ≠ 1) :
      Alone C T i (some c) (.call (C.regsOf c) ret)
        (some { c with regs := Function.update c.regs C.number ret })
  | exit (c : Context R w) (h : (C.regsOf c).number.toNat = 1) :
      Alone C T i (some c) (.exit (C.regsOf c)) none
  | stay (c : Context R w) (h : (C.regsOf c).number.toNat = 1) :
      Alone C T i (some c) (.stay (C.regsOf c)) (some c)

/-- What task `i` does in an event; interrupts are none of it. -/
def TaskEvent.actOf (i : ℕ) : TaskEvent R w → Option (Act R w)
  | .kernel | .tick | .key => none
  | .create j entryPoint => if j = i then some (.start entryPoint) else none
  | .compute j cpu => if j = i then some (.compute cpu) else none
  | .call j regs ret => if j = i then some (.call regs ret) else none
  | .exit j regs => if j = i then some (.exit regs) else none
  | .stay j regs => if j = i then some (.stay regs) else none

/-- What the machine has of task `i`. -/
def Machine.view (A : Arch R w) (m : Machine R w) (i : ℕ) : Option (Context R w) :=
  if m.sched.currentTask = some i then some m.cpu
  else if i < m.sched.taskCount ∧ (m.sched.tasks i).active = true then
    some (leave A m.mem (m.sched.tasks i).stackPointer m.cpu.regs)
  else none

/-! ### The frame of a system call -/

variable {C : Calls A} {T : TaskTable}

theorem Calls.field_eq (C : Calls A) (sp : ℕ) (r : R) :
    C.field sp r = A.slot (sp + A.wordBytes * C.segments) r := by
  have hnone : some r ∉ List.replicate C.segments (none : Option R) := fun h => by
    cases List.eq_of_mem_replicate h
  rw [field, C.fields_eq, List.idxOf_append_of_notMem hnone, List.length_replicate, Nat.mul_add,
    ← Nat.add_assoc, Arch.slot]

section Enter

variable {c : Context R w} {segs : List (BitVec w)} {s : Stack (BitVec w)}

omit [DecidableEq R] in
theorem Calls.enter_sp (hal : s.sp % A.align = 0) (hsegs : segs.length = C.segments) :
    (C.enter c segs s).sp = s.sp - A.frameBytes - A.wordBytes * C.segments := by
  rw [Calls.enter, Stack.pushAll_sp, Core.enter_sp hal, hsegs]

omit [DecidableEq R] in
/-- A system call changes only the words it pushes. -/
theorem Calls.enter_other (hal : s.sp % A.align = 0) (hsegs : segs.length = C.segments)
    (hfit : A.wordBytes * C.segments + A.frameBytes ≤ s.sp) {a : ℕ}
    (h : a < s.sp - A.frameBytes - A.wordBytes * C.segments ∨ s.sp ≤ a) :
    (C.enter c segs s).mem a = s.mem a := by
  rw [Calls.enter, Stack.pushAll_other _ A.wordBytes_pos, Core.enter_other hal]
  all_goals first | rw [hsegs, Core.enter_sp hal] | skip
  all_goals omega

/-- **The way back undoes the way in.** -/
theorem Calls.leave_enter (hal : s.sp % A.align = 0) (hsegs : segs.length = C.segments)
    (hfit : A.wordBytes * C.segments + A.frameBytes ≤ s.sp) (regs : R → BitVec w) :
    C.leave (C.enter c segs s).mem (C.enter c segs s).sp regs = c := by
  have hsp := enter_sp (C := C) (c := c) hal hsegs
  have htop : (C.enter c segs s).sp + A.wordBytes * C.segments = (Core.enter A c s).sp := by
    rw [hsp, Core.enter_sp hal]
    omega
  rw [leave, htop, leave_congr fun a h₁ _ => ?_, Core.leave_enter hal (by omega)]
  -- the segment registers are below the frame
  refine Stack.pushAll_other (.inr h₁) A.wordBytes_pos ?_
  rw [hsegs, Core.enter_sp hal]
  omega

/-- **`syscall_handler` reads the registers of the program.** -/
theorem Calls.readRegs_enter (hal : s.sp % A.align = 0) (hsegs : segs.length = C.segments)
    (hfit : A.wordBytes * C.segments + A.frameBytes ≤ s.sp) :
    C.readRegs (C.enter c segs s).mem (C.enter c segs s).sp = C.regsOf c := by
  have hreg : ∀ r, (C.enter c segs s).mem (C.field (C.enter c segs s).sp r) = c.regs r :=
    fun r => by
      have hleave := congrArg (Context.regs · r) (leave_enter (c := c) hal hsegs hfit c.regs)
      rw [C.field_eq]
      exact (leave_regs C.nodup r).symm.trans hleave
  simp only [readRegs, hreg, regsOf]

end Enter

/-! ### Between two events -/

/-- Every active task but the current one has a frame on the top of its kernel stack, and the TSS
has the stack of the current one, which has exited only if it was the last. -/
structure Multiplexed (A : Arch R w) (T : TaskTable) (m : Machine R w) : Prop where
  count : m.sched.taskCount ≤ T.maxTasks
  frames : ∀ i < m.sched.taskCount, (m.sched.tasks i).active = true →
    m.sched.currentTask ≠ some i →
      (m.sched.tasks i).stackPointer = T.kernelStackTop i - A.frameBytes
  booting : m.sched.currentTask = none → ∀ i < m.sched.taskCount, (m.sched.tasks i).active = true
  current : ∀ c, m.sched.currentTask = some c →
    c < m.sched.taskCount ∧ m.sched.tssStack = T.kernelStackTop c ∧
      ((m.sched.tasks c).active = false → ∀ i < m.sched.taskCount,
        (m.sched.tasks i).active = false)

variable {m m' : Machine R w}

theorem view_current {c : ℕ} (hc : m.sched.currentTask = some c) : m.view A c = some m.cpu :=
  if_pos hc

theorem view_none {i : ℕ} (hc : m.sched.currentTask ≠ some i)
    (h : ¬ (i < m.sched.taskCount ∧ (m.sched.tasks i).active = true)) : m.view A i = none := by
  rw [Machine.view, if_neg hc, if_neg h]

theorem view_frame {i sp : ℕ} (hc : m.sched.currentTask ≠ some i) (hi : i < m.sched.taskCount)
    (hact : (m.sched.tasks i).active = true) (hsp : (m.sched.tasks i).stackPointer = sp) :
    m.view A i = some (leave A m.mem sp m.cpu.regs) := by
  rw [Machine.view, if_neg hc, if_pos ⟨hi, hact⟩, hsp]

theorem leave_filler (C : Calls A) (mem : ℕ → BitVec w) (sp : ℕ) (regs regs' : R → BitVec w) :
    leave A mem sp regs = leave A mem sp regs' :=
  Context.ext (funext fun r => by rw [leave_regs C.nodup, leave_regs C.nodup]) rfl rfl rfl rfl rfl

/-- A frame on a kernel stack that is kept is seen as before. -/
theorem leave_keeps (C : Calls A) {i : ℕ} {mem mem' : ℕ → BitVec w} (h : KeepsStack T i mem mem')
    (regs regs' : R → BitVec w) :
    leave A mem' (T.kernelStackTop i - A.frameBytes) regs =
      leave A mem (T.kernelStackTop i - A.frameBytes) regs' := by
  have hfit : A.frameBytes ≤ 4096 := A.fits
  have htop : T.kernelStackTop i = T.kernelStack i + 4096 := rfl
  rw [leave_filler C _ _ regs regs', leave_congr fun a h₁ h₂ => h a (by omega) (by omega)]

/-- The view of a task that does not run depends on its kernel stack only. -/
theorem Multiplexed.view_eq (C : Calls A) (h : Multiplexed A T m) {i : ℕ} {mem : ℕ → BitVec w}
    (hc : m.sched.currentTask ≠ some i) (hmem : KeepsStack T i m.mem mem) (cpu : Context R w) :
    Machine.view A ⟨m.sched, mem, cpu⟩ i = m.view A i := by
  rw [Machine.view, Machine.view, if_neg hc, if_neg hc]
  dsimp only
  by_cases hact : i < m.sched.taskCount ∧ (m.sched.tasks i).active = true
  · rw [if_pos hact, if_pos hact, h.frames i hact.1 hact.2 hc, leave_keeps C hmem]
  · rw [if_neg hact, if_neg hact]

omit [DecidableEq R] in
/-- An event in which the scheduler is not called. -/
theorem Multiplexed.same (h : Multiplexed A T m) (mem : ℕ → BitVec w) (cpu : Context R w) :
    Multiplexed A T ⟨m.sched, mem, cpu⟩ :=
  ⟨h.count, h.frames, h.booting, h.current⟩

omit [DecidableEq R] in
/-- What is written to the top of one kernel stack leaves the others. -/
theorem keepsStack_other {i c n : ℕ} {mem mem' : ℕ → BitVec w} (hne : i ≠ c) (hfit : n ≤ 4096)
    (h : ∀ a, a < T.kernelStackTop c - n ∨ T.kernelStackTop c ≤ a → mem' a = mem a) :
    KeepsStack T i mem mem' := fun a h₁ h₂ => by
  have htop : T.kernelStackTop c = T.kernelStack c + 4096 := rfl
  rcases T.kernelStack_apart hne h₁ h₂ with hlow | hhigh
  · exact h a (.inl (by omega))
  · exact h a (.inr hhigh)

omit [DecidableEq R] in
theorem KeepsStack.trans {i : ℕ} {mem mem₁ mem' : ℕ → BitVec w} (h : KeepsStack T i mem mem₁)
    (h' : KeepsStack T i mem₁ mem') : KeepsStack T i mem mem' :=
  fun a h₁ h₂ => (h' a h₁ h₂).trans (h a h₁ h₂)

section Schedule

variable {s s' : Sched} {sp ret : ℕ} (mem : ℕ → BitVec w)

/-- **A switch.**  Where a task is active, and the frames of the active tasks are on the tops of
their kernel stacks, `schedule` goes on with one of them, and they are seen in their frames. -/
theorem multiplexed_switch (C : Calls A) (hcount : s.taskCount ≤ T.maxTasks)
    (hsaved : ∀ i < s.taskCount, (s.tasks i).active = true →
      ((saveStackPointer s sp).tasks i).stackPointer = T.kernelStackTop i - A.frameBytes)
    (hact : ∃ i < s.taskCount, (s.tasks i).active = true) (h : schedule T s sp = (ret, s'))
    (regs : R → BitVec w) :
    Multiplexed A T ⟨s', mem, leave A mem ret regs⟩ ∧
      ∀ i, Machine.view A ⟨s', mem, leave A mem ret regs⟩ i =
        if i < s.taskCount ∧ (s.tasks i).active = true then
          some (leave A mem (T.kernelStackTop i - A.frameBytes) regs)
        else none := by
  obtain ⟨k, hk, hkact⟩ := hact
  obtain ⟨t, hlt, htact, hsched⟩ := schedule_active (T := T) hk hkact sp
  rw [h] at hsched
  obtain ⟨rfl, rfl⟩ := Prod.mk.inj hsched
  refine ⟨⟨by simpa using hcount, fun i hi hiact _ => ?_, fun hc => ?_, fun c hc => ?_⟩,
    fun i => ?_⟩
  · exact hsaved i (by simpa using hi) (by simpa using hiact)
  · cases hc
  · obtain rfl := Option.some.inj hc
    refine ⟨by simpa using hlt, rfl, fun hidle => ?_⟩
    rw [saveStackPointer_active, htact] at hidle
    cases hidle
  · rw [Machine.view]
    dsimp only
    simp only [saveStackPointer_taskCount, saveStackPointer_active]
    by_cases e : t = i
    · subst e
      rw [if_pos rfl, if_pos ⟨hlt, htact⟩, hsaved t hlt htact]
    · rw [if_neg fun h => e (Option.some.inj h)]
      by_cases hi : i < s.taskCount ∧ (s.tasks i).active = true
      · rw [if_pos hi, if_pos hi, hsaved i hi.1 hi.2, leave_filler C _ _ _ regs]
      · rw [if_neg hi, if_neg hi]

/-- Where no task is active, `schedule` goes on with the caller, which is the current task. -/
theorem multiplexed_idle {c : ℕ} (hcount : s.taskCount ≤ T.maxTasks)
    (hc : s.currentTask = some c) (hlt : c < s.taskCount) (htss : s.tssStack = T.kernelStackTop c)
    (hidle : ∀ i < s.taskCount, (s.tasks i).active = false) (h : schedule T s sp = (ret, s'))
    (cpu : Context R w) : ret = sp ∧ Multiplexed A T ⟨s', mem, cpu⟩ ∧
      ∀ i, Machine.view A ⟨s', mem, cpu⟩ i = if c = i then some cpu else none := by
  rw [schedule_idle (by omega) hidle] at h
  obtain ⟨rfl, rfl⟩ := Prod.mk.inj h
  have hnone : ∀ i < (saveStackPointer s sp).taskCount,
      ((saveStackPointer s sp).tasks i).active = false := fun i hi => by
    rw [saveStackPointer_active]
    exact hidle i (by simpa using hi)
  refine ⟨rfl, ⟨by simpa using hcount, fun i hi hact => ?_, fun hc' => ?_, fun c' hc' => ?_⟩,
    fun i => ?_⟩
  · rw [hnone i hi] at hact
    cases hact
  · rw [saveStackPointer_currentTask, hc] at hc'
    cases hc'
  · rw [saveStackPointer_currentTask, hc] at hc'
    obtain rfl := Option.some.inj hc'
    refine ⟨by simpa using hlt, ?_, fun _ => hnone⟩
    rw [← htss, saveStackPointer_eq, modifyCurrent]
    dsimp only
    split <;> rfl
  · rw [Machine.view]
    dsimp only
    rw [saveStackPointer_currentTask, hc]
    by_cases e : c = i
    · rw [if_pos (congrArg some e), if_pos e]
    · rw [if_neg fun h => e (Option.some.inj h), if_neg e, if_neg]
      rintro ⟨hi, hact⟩
      rw [hnone i hi] at hact
      cases hact

end Schedule

/-! ### One event -/

/-- What the views before and after an event of task `i` are to each other. -/
structure Seen (C : Calls A) (T : TaskTable) (i : ℕ) (e : TaskEvent R w)
    (v v' : Option (Context R w)) : Prop where
  act : ∀ a, e.actOf i = some a → Alone C T i v a v'
  none : e.actOf i = none → v' = v

theorem Seen.of_none {i : ℕ} {e : TaskEvent R w} {v v' : Option (Context R w)}
    (he : e.actOf i = .none) (h : v' = v) : Seen C T i e v v' where
  act a ha := by rw [he] at ha; cases ha
  none _ := h

theorem Seen.of_act {i : ℕ} {e : TaskEvent R w} {a : Act R w} {v v' : Option (Context R w)}
    (he : e.actOf i = some a) (h : Alone C T i v a v') : Seen C T i e v v' where
  act a' ha := by rw [he] at ha; cases ha; exact h
  none ha := by rw [he] at ha; cases ha

/-- The frame of a task that does not run, where its kernel stack is kept. -/
theorem Multiplexed.saved (h : Multiplexed A T m) (C : Calls A) {i : ℕ} {mem : ℕ → BitVec w}
    (hc : m.sched.currentTask ≠ some i) (hmem : KeepsStack T i m.mem mem) (regs : R → BitVec w) :
    (if i < m.sched.taskCount ∧ (m.sched.tasks i).active = true then
      some (leave A mem (T.kernelStackTop i - A.frameBytes) regs) else none) = m.view A i := by
  rw [Machine.view, if_neg hc]
  by_cases hact : i < m.sched.taskCount ∧ (m.sched.tasks i).active = true
  · rw [if_pos hact, if_pos hact, h.frames i hact.1 hact.2 hc, leave_keeps C hmem]
  · rw [if_neg hact, if_neg hact]

/-- An interrupt of the current task: it leaves the other kernel stacks, and the way back undoes
it. -/
theorem Multiplexed.interrupt (h : Multiplexed A T m) {c : ℕ}
    (hc : m.sched.currentTask = some c) {st : Stack (BitVec w)}
    (henter : enter A m.cpu ⟨m.mem, m.sched.tssStack⟩ = st) :
    st.sp = T.kernelStackTop c - A.frameBytes ∧ (∀ i ≠ c, KeepsStack T i m.mem st.mem) ∧
      ∀ mem, (∀ a, st.sp ≤ a → a < m.sched.tssStack → mem a = st.mem a) →
        ∀ regs, leave A mem st.sp regs = m.cpu := by
  obtain ⟨-, htss, -⟩ := h.current c hc
  rw [htss] at henter ⊢
  have hal := T.aligned_kernelStackTop A c
  have hfit : A.frameBytes ≤ T.kernelStackTop c := frameBytes_le_kernelStackTop c
  have hsp : st.sp = T.kernelStackTop c - A.frameBytes := by rw [← henter, enter_sp hal]
  refine ⟨hsp, fun i hne => ?_, fun mem hframe regs => ?_⟩
  · refine keepsStack_other hne A.fits fun a ha => ?_
    rw [← henter]
    exact enter_other hal hfit ha
  · rw [leave_congr fun a h₁ h₂ => hframe a h₁ (by omega), ← henter, leave_enter hal hfit]

/-- A system call of the current task, likewise. -/
theorem Multiplexed.syscall (h : Multiplexed A T m) {c : ℕ} (hc : m.sched.currentTask = some c)
    {segs : List (BitVec w)} (hsegs : segs.length = C.segments) {st : Stack (BitVec w)}
    (henter : C.enter m.cpu segs ⟨m.mem, m.sched.tssStack⟩ = st) :
    C.readRegs st.mem st.sp = C.regsOf m.cpu ∧ (∀ i ≠ c, KeepsStack T i m.mem st.mem) ∧
      (∀ regs, C.leave st.mem st.sp regs = m.cpu) ∧
      ∀ mem mem', (∀ a, st.sp ≤ a → a < m.sched.tssStack → mem a = mem' a) →
        ∀ regs, C.leave mem st.sp regs = C.leave mem' st.sp regs := by
  obtain ⟨-, htss, -⟩ := h.current c hc
  rw [htss] at henter ⊢
  have hal := T.aligned_kernelStackTop A c
  have htop : T.kernelStackTop c = T.kernelStack c + 4096 := rfl
  have hbytes := C.fits
  have hfit : A.wordBytes * C.segments + A.frameBytes ≤ T.kernelStackTop c := by omega
  have hsp : st.sp = T.kernelStackTop c - A.frameBytes - A.wordBytes * C.segments := by
    rw [← henter, Calls.enter_sp hal hsegs]
  refine ⟨?_, fun i hne => ?_, fun regs => ?_, fun mem mem' hframe regs => ?_⟩
  · rw [← henter]
    exact Calls.readRegs_enter hal hsegs hfit
  · refine keepsStack_other hne hbytes fun a ha => ?_
    rw [← henter]
    refine Calls.enter_other hal hsegs hfit (ha.imp_left fun hlow => ?_)
    dsimp only
    omega
  · rw [← henter]
    exact Calls.leave_enter hal hsegs hfit regs
  · exact leave_congr (fun a h₁ h₂ => hframe a (by omega) (by omega)) regs

/-- The machine and all its views after an event. -/
def StepSeen (C : Calls A) (T : TaskTable) (m : Machine R w) (e : TaskEvent R w)
    (m' : Machine R w) : Prop :=
  Multiplexed A T m' ∧ ∀ i, Seen C T i e (m.view A i) (m'.view A i)

theorem Multiplexed.kernel (h : Multiplexed A T m) (hc : m.sched.currentTask = none)
    {mem : ℕ → BitVec w} (hmem : ∀ i, KeepsStack T i m.mem mem) (cpu : Context R w) :
    StepSeen C T m .kernel ⟨m.sched, mem, cpu⟩ :=
  ⟨h.same mem cpu, fun i => .of_none rfl (h.view_eq C (by rw [hc]; simp) (hmem i) cpu)⟩

theorem Multiplexed.create (h : Multiplexed A T m) (entryPoint : BitVec w)
    (hc : m.sched.currentTask = none) (hlt : m.sched.taskCount < T.maxTasks) :
    StepSeen C T m (.create m.sched.taskCount entryPoint)
      ⟨(taskCreateUser A T m.sched m.mem entryPoint).1,
        (taskCreateUser A T m.sched m.mem entryPoint).2, m.cpu⟩ := by
  have hc' : (taskCreateUser A T m.sched m.mem entryPoint).1.currentTask = none := by
    rw [taskCreateUser_currentTask hlt, hc]
  have hcount : (taskCreateUser A T m.sched m.mem entryPoint).1.taskCount =
      m.sched.taskCount + 1 := taskCreateUser_taskCount hlt
  refine ⟨⟨?_, ?_, fun _ => ?_, fun c hcur => ?_⟩, fun i => ?_⟩
  · dsimp only
    rwa [hcount]
  · dsimp only
    rw [hcount, hc']
    exact forall_created (P := fun i t => t.active = true → none ≠ some i →
      t.stackPointer = T.kernelStackTop i - A.frameBytes) hlt (fun _ _ => rfl)
      fun i hi hact _ => h.frames i hi hact (by rw [hc]; simp)
  · dsimp only
    rw [hcount]
    exact forall_created (P := fun _ t => t.active = true) hlt rfl (h.booting hc)
  · cases hc'.symm.trans hcur
  · have hne : m.sched.currentTask ≠ some i := by rw [hc]; simp
    have hne' : (taskCreateUser A T m.sched m.mem entryPoint).1.currentTask ≠ some i := by
      rw [hc']; simp
    by_cases e : m.sched.taskCount = i
    · -- the task created: its first frame
      subst e
      refine .of_act (if_pos rfl) ?_
      have htask : (taskCreateUser A T m.sched m.mem entryPoint).1.tasks m.sched.taskCount =
          ⟨T.kernelStackTop m.sched.taskCount - A.frameBytes, m.sched.taskCount + 1, true⟩ := by
        rw [taskCreateUser_sched hlt]
        exact Function.update_self ..
      rw [view_none hne fun hi => Nat.lt_irrefl _ hi.1, view_frame hne'
        (Nat.lt_of_lt_of_eq (Nat.lt_succ_self _) hcount.symm) (congrArg Task.active htask)
        (congrArg Task.stackPointer htask), leave_created hlt]
      exact .start entryPoint
    · refine .of_none (if_neg e) ?_
      have htask : (taskCreateUser A T m.sched m.mem entryPoint).1.tasks i = m.sched.tasks i := by
        rw [taskCreateUser_sched hlt]
        exact Function.update_of_ne (Ne.symm e) ..
      by_cases hi : i < m.sched.taskCount
      · have hact := h.booting hc i hi
        have hsp := h.frames i hi hact hne
        rw [view_frame hne hi hact hsp, view_frame hne' (by dsimp only; omega)
          ((congrArg Task.active htask).trans hact)
          ((congrArg Task.stackPointer htask).trans hsp)]
        exact congrArg some (leave_keeps C (keepsStack_other (Ne.symm e) A.fits
          fun a ha => taskCreateUser_other hlt ha) _ _)
      · rw [view_none hne fun hi' => hi hi'.1, view_none hne' fun hi' => hi ?_]
        have hlt' := hi'.1
        dsimp only at hlt'
        omega

theorem Multiplexed.compute (h : Multiplexed A T m) {c : ℕ} (hc : m.sched.currentTask = some c)
    {mem : ℕ → BitVec w} (hmem : ∀ i ≠ c, KeepsStack T i m.mem mem) (cpu : Context R w) :
    StepSeen C T m (.compute c cpu) ⟨m.sched, mem, cpu⟩ := by
  refine ⟨h.same mem cpu, fun i => ?_⟩
  by_cases e : c = i
  · subst e
    rw [view_current hc, view_current (m := ⟨m.sched, mem, cpu⟩) hc]
    exact .of_act (if_pos rfl) (.compute _ _)
  · refine .of_none (if_neg e) (h.view_eq C ?_ (hmem i (Ne.symm e)) cpu)
    rw [hc]
    exact fun h => e (Option.some.inj h)

/-- The first tick: the idle loop of `kmain` is interrupted. -/
theorem Multiplexed.boot (h : Multiplexed A T m) (C : Calls A)
    (hc : m.sched.currentTask = none)
    {mem : ℕ → BitVec w} (hmem : ∀ i, KeepsStack T i m.mem mem) {sp ret : ℕ} {s' : Sched}
    (hsched : schedule T m.sched sp = (ret, s')) (regs : R → BitVec w) :
    StepSeen C T m .tick ⟨s', mem, leave A mem ret regs⟩ := by
  have hne : ∀ {i}, m.sched.currentTask ≠ some i := by rw [hc]; simp
  by_cases h₀ : m.sched.taskCount = 0
  · -- there is no task yet: back to the idle loop
    rw [schedule_empty h₀] at hsched
    obtain ⟨rfl, rfl⟩ := Prod.mk.inj hsched
    exact ⟨h.same _ _, fun i => .of_none rfl (h.view_eq C hne (hmem i) _)⟩
  · obtain ⟨hm, hview⟩ := multiplexed_switch mem C h.count (fun i hi hact => by
      rw [saveStackPointer_stackPointer, if_neg hne]
      exact h.frames i hi hact hne)
      ⟨0, Nat.pos_of_ne_zero h₀, h.booting hc 0 (Nat.pos_of_ne_zero h₀)⟩ hsched regs
    exact ⟨hm, fun i => .of_none rfl (by rw [hview, h.saved C hne (hmem i) regs])⟩

theorem Multiplexed.tick (h : Multiplexed A T m) (C : Calls A) {c : ℕ}
    (hc : m.sched.currentTask = some c) {st : Stack (BitVec w)} {mem : ℕ → BitVec w}
    (henter : enter A m.cpu ⟨m.mem, m.sched.tssStack⟩ = st)
    (hmem : ∀ i ≠ c, KeepsStack T i st.mem mem)
    (hframe : ∀ a, st.sp ≤ a → a < m.sched.tssStack → mem a = st.mem a) {ret : ℕ} {s' : Sched}
    (hsched : schedule T m.sched st.sp = (ret, s')) (regs : R → BitVec w) :
    StepSeen C T m .tick ⟨s', mem, leave A mem ret regs⟩ := by
  obtain ⟨hlt, htss, hlast⟩ := h.current c hc
  obtain ⟨hsp, hothers, hleave⟩ := h.interrupt hc henter
  have hkeep : ∀ i ≠ c, KeepsStack T i m.mem mem := fun i hne => (hothers i hne).trans (hmem i hne)
  have hne : ∀ {i}, i ≠ c → m.sched.currentTask ≠ some i := fun e h' =>
    e (Option.some.inj (h'.symm.trans hc))
  cases hact : (m.sched.tasks c).active with
  | true =>
      obtain ⟨hm, hview⟩ := multiplexed_switch mem C h.count (fun i hi hiact => by
        rw [saveStackPointer_stackPointer]
        split
        · rename_i hi'
          rw [hsp, Option.some.inj (hi'.symm.trans hc)]
        · rename_i hi'
          exact h.frames i hi hiact hi') ⟨c, hlt, hact⟩ hsched regs
      refine ⟨hm, fun i => .of_none rfl ?_⟩
      rw [hview]
      by_cases e : i = c
      · subst e
        rw [if_pos ⟨hlt, hact⟩, ← hsp, hleave mem hframe, view_current hc]
      · exact h.saved C (hne e) (hkeep i e) regs
  | false =>
      -- the current task was the last, and has exited: the tick returns to it
      have hidle := hlast hact
      obtain ⟨rfl, hm, hview⟩ := multiplexed_idle mem h.count hc hlt htss hidle hsched
        (leave A mem ret regs)
      refine ⟨hm, fun i => .of_none rfl ?_⟩
      rw [hview, hleave mem hframe]
      by_cases e : c = i
      · subst e
        rw [if_pos rfl, view_current hc]
      · rw [if_neg e, view_none (hne (Ne.symm e))]
        rintro ⟨hi, hiact⟩
        cases (hidle i hi).symm.trans hiact

/-- The handler of an interrupt returns to the task interrupted. -/
theorem Multiplexed.key (h : Multiplexed A T m) (C : Calls A) {c : ℕ}
    (hc : m.sched.currentTask = some c) {st : Stack (BitVec w)} {mem : ℕ → BitVec w}
    (henter : enter A m.cpu ⟨m.mem, m.sched.tssStack⟩ = st)
    (hmem : ∀ i ≠ c, KeepsStack T i st.mem mem)
    (hframe : ∀ a, st.sp ≤ a → a < m.sched.tssStack → mem a = st.mem a) (regs : R → BitVec w) :
    StepSeen C T m .key ⟨m.sched, mem, leave A mem st.sp regs⟩ := by
  obtain ⟨-, hothers, hleave⟩ := h.interrupt hc henter
  rw [hleave mem hframe]
  refine ⟨h.same _ _, fun i => .of_none rfl ?_⟩
  by_cases e : i = c
  · subst e
    rw [view_current hc, view_current (m := ⟨m.sched, mem, m.cpu⟩) hc]
  · refine h.view_eq C (fun h' => e ?_) ((hothers i e).trans (hmem i e)) _
    exact Option.some.inj (h'.symm.trans hc)

theorem Multiplexed.call (h : Multiplexed A T m) {c : ℕ} (hc : m.sched.currentTask = some c)
    {segs : List (BitVec w)} (hsegs : segs.length = C.segments) {st : Stack (BitVec w)}
    {mem : ℕ → BitVec w} (henter : C.enter m.cpu segs ⟨m.mem, m.sched.tssStack⟩ = st)
    (hnumber : (C.readRegs st.mem st.sp).number.toNat ≠ 1)
    (hmem : ∀ i ≠ c, KeepsStack T i st.mem mem) (ret : BitVec w)
    (hframe : ∀ a, st.sp ≤ a → a < m.sched.tssStack →
      mem a = Function.update st.mem (C.field st.sp C.number) ret a) (regs : R → BitVec w) :
    StepSeen C T m (.call c (C.readRegs st.mem st.sp) ret)
      ⟨m.sched, mem, C.leave mem st.sp regs⟩ := by
  obtain ⟨hregs, hothers, hback, hleave⟩ := h.syscall hc hsegs henter
  -- the one field that is written is the slot of the register of the result
  have hcpu : C.leave mem st.sp regs =
      { m.cpu with regs := Function.update m.cpu.regs C.number ret } := by
    rw [hleave mem _ hframe regs, C.field_eq, Calls.leave, leave_update C.nodup, ← Calls.leave,
      hback regs]
  rw [hregs] at hnumber ⊢
  rw [hcpu]
  refine ⟨h.same _ _, fun i => ?_⟩
  by_cases e : c = i
  · subst e
    rw [view_current hc, view_current (m := ⟨m.sched, mem, _⟩) hc]
    exact .of_act (if_pos rfl) (.call _ _ hnumber)
  · refine .of_none (if_neg e) (h.view_eq C (fun h' => e ?_) ?_ _)
    · exact Option.some.inj (hc.symm.trans h')
    · exact (hothers i (Ne.symm e)).trans (hmem i (Ne.symm e))

omit [DecidableEq R] in
/-- The frames of the tasks a task that exits leaves behind. -/
theorem Multiplexed.frames_exit (h : Multiplexed A T m) {c : ℕ}
    (hc : m.sched.currentTask = some c) (sp : ℕ) :
    ∀ i < (taskExit m.sched).taskCount, ((taskExit m.sched).tasks i).active = true →
      i ≠ c ∧ (m.sched.tasks i).active = true ∧
        ((saveStackPointer (taskExit m.sched) sp).tasks i).stackPointer =
          T.kernelStackTop i - A.frameBytes := by
  intro i hi hact
  rw [taskExit_active] at hact
  split at hact
  · cases hact
  · rename_i hne
    refine ⟨fun e => hne (e ▸ hc), hact, ?_⟩
    rw [saveStackPointer_stackPointer, taskExit_currentTask, if_neg hne, taskExit_stackPointer]
    exact h.frames i (by simpa using hi) hact hne

theorem Multiplexed.exit (h : Multiplexed A T m) {c : ℕ} (hc : m.sched.currentTask = some c)
    {segs : List (BitVec w)} (hsegs : segs.length = C.segments) {st : Stack (BitVec w)}
    {mem : ℕ → BitVec w} (henter : C.enter m.cpu segs ⟨m.mem, m.sched.tssStack⟩ = st)
    (hnumber : (C.readRegs st.mem st.sp).number.toNat = 1)
    (hmem : ∀ i ≠ c, KeepsStack T i st.mem mem) {sp ret : ℕ} {s' : Sched}
    (hsched : schedule T (taskExit m.sched) sp = (ret, s')) (hret : ret ≠ sp)
    (regs : R → BitVec w) :
    StepSeen C T m (.exit c (C.readRegs st.mem st.sp)) ⟨s', mem, leave A mem ret regs⟩ := by
  obtain ⟨hregs, hothers, -, -⟩ := h.syscall hc hsegs henter
  obtain ⟨hlt, htss, -⟩ := h.current c hc
  rw [hregs] at hnumber ⊢
  have htss' : (taskExit m.sched).tssStack = T.kernelStackTop c := by
    rw [← htss, taskExit_eq, modifyCurrent]
    split <;> rfl
  have hactive : ∃ i < (taskExit m.sched).taskCount,
      ((taskExit m.sched).tasks i).active = true := by
    by_contra hnone
    refine hret (multiplexed_idle (A := A) mem (by simpa using h.count) (by simpa using hc)
      (by simpa using hlt) htss' (fun i hi => ?_) hsched m.cpu).1
    exact Bool.eq_false_iff.mpr fun hact => hnone ⟨i, hi, hact⟩
  obtain ⟨hm, hview⟩ := multiplexed_switch mem C (by simpa using h.count)
    (fun i hi hact => (h.frames_exit hc sp i hi hact).2.2) hactive hsched regs
  refine ⟨hm, fun i => ?_⟩
  rw [hview, taskExit_taskCount, taskExit_active]
  by_cases e : c = i
  · subst e
    rw [view_current hc, if_neg (by simp [hc])]
    exact .of_act (if_pos rfl) (.exit _ hnumber)
  · have hne : m.sched.currentTask ≠ some i := fun h' => e (Option.some.inj (hc.symm.trans h'))
    rw [if_neg hne]
    refine .of_none (if_neg e) (h.saved C hne ?_ regs)
    exact (hothers i (Ne.symm e)).trans (hmem i (Ne.symm e))

/-- The exit of the last task: it goes on. -/
theorem Multiplexed.stay (h : Multiplexed A T m) {c : ℕ} (hc : m.sched.currentTask = some c)
    {segs : List (BitVec w)} (hsegs : segs.length = C.segments) {st : Stack (BitVec w)}
    {mem : ℕ → BitVec w} (henter : C.enter m.cpu segs ⟨m.mem, m.sched.tssStack⟩ = st)
    (hnumber : (C.readRegs st.mem st.sp).number.toNat = 1)
    (hframe : ∀ a, st.sp ≤ a → a < m.sched.tssStack → mem a = st.mem a) {sp : ℕ} {s' : Sched}
    (hsp : T.Belongs c sp) (hsched : schedule T (taskExit m.sched) sp = (sp, s'))
    (regs : R → BitVec w) :
    StepSeen C T m (.stay c (C.readRegs st.mem st.sp)) ⟨s', mem, C.leave mem st.sp regs⟩ := by
  obtain ⟨hregs, -, hback, hleave⟩ := h.syscall hc hsegs henter
  obtain ⟨hlt, htss, -⟩ := h.current c hc
  rw [hregs] at hnumber ⊢
  rw [hleave mem _ hframe regs, hback regs]
  have htss' : (taskExit m.sched).tssStack = T.kernelStackTop c := by
    rw [← htss, taskExit_eq, modifyCurrent]
    split <;> rfl
  -- were a task active, `schedule` would have returned a frame on its stack
  have hidle : ∀ i < (taskExit m.sched).taskCount,
      ((taskExit m.sched).tasks i).active = false := by
    by_contra hnot
    push Not at hnot
    obtain ⟨k, hk, hkact⟩ := hnot
    obtain ⟨t, htlt, htact, ht⟩ := schedule_active (T := T) hk (by simpa using hkact) sp
    obtain ⟨htc, -, htsp⟩ := h.frames_exit hc sp t htlt htact
    rw [hsched] at ht
    have hret := congrArg Prod.fst ht
    dsimp only at hret
    rw [htsp] at hret
    exact htc ((hret ▸ belongs_created (A := A) t).unique hsp)
  obtain ⟨-, hm, hview⟩ := multiplexed_idle (A := A) mem (by simpa using h.count)
    (by simpa using hc) (by simpa using hlt) htss' hidle hsched m.cpu
  refine ⟨hm, fun i => ?_⟩
  rw [hview]
  by_cases e : c = i
  · subst e
    rw [view_current hc, if_pos rfl]
    exact .of_act (if_pos rfl) (.stay _ hnumber)
  · have hne : m.sched.currentTask ≠ some i := fun h' => e (Option.some.inj (hc.symm.trans h'))
    refine .of_none (if_neg e) ?_
    rw [if_neg e, view_none hne]
    rintro ⟨hi, hact⟩
    have hfalse := hidle i (by simpa using hi)
    rw [taskExit_active, if_neg hne, hact] at hfalse
    cases hfalse

/-- **One event**, in the views of all tasks. -/
theorem TaskStep.seen {e : TaskEvent R w} (hstep : TaskStep C T m e m')
    (h : Multiplexed A T m) : StepSeen C T m e m' := by
  cases hstep with
  | kernel cpu hc hmem => exact h.kernel hc hmem cpu
  | create entryPoint hc hlt => exact h.create entryPoint hc hlt
  | compute cpu hc hmem => exact h.compute hc hmem cpu
  | boot regs hc hmem hsched => exact h.boot C hc hmem hsched regs
  | tick regs hc henter hmem hframe hsched => exact h.tick C hc henter hmem hframe hsched regs
  | key regs hc henter hmem hframe => exact h.key C hc henter hmem hframe regs
  | call ret regs hc hsegs henter hnumber hmem hframe =>
      exact h.call hc hsegs henter hnumber hmem ret hframe regs
  | exit regs hc hsegs henter hnumber hmem hsp hsched hret =>
      exact h.exit hc hsegs henter hnumber hmem hsched hret regs
  | stay regs hc hsegs henter hnumber hmem hframe hsp hsched =>
      exact h.stay hc hsegs henter hnumber hframe hsp hsched regs

/-- **Any run of the machine is, for each task, a run of that task alone.** -/
theorem run_alone {s : Sched} {mem : ℕ → BitVec w} {cpu : Context R w} {es : List (TaskEvent R w)}
    (h : Run (TaskStep C T) ⟨schedulerInit T s, mem, cpu⟩ es m) (i : ℕ) :
    Run (Alone C T i) none (es.filterMap (TaskEvent.actOf i)) (m.view A i) := by
  have hinit : Multiplexed A T ⟨schedulerInit T s, mem, cpu⟩ :=
    ⟨Nat.zero_le _, fun i hi => absurd hi (Nat.not_lt_zero i),
      fun _ i hi => absurd hi (Nat.not_lt_zero i), fun c hc => by cases hc⟩
  have hnone : Machine.view A ⟨schedulerInit T s, mem, cpu⟩ i = none :=
    view_none nofun fun hi => absurd hi.1 (Nat.not_lt_zero i)
  rw [← hnone]
  exact h.project (I := Multiplexed A T) (r := (Machine.view A · i))
    (fun hm hstep => (hstep.seen hm).1)
    (fun hm hstep hact => ((hstep.seen hm).2 i).act _ hact)
    (fun hm hstep hact => ((hstep.seen hm).2 i).none hact) hinit

end

/-- **Each task runs as on a processor of its own.**  On x86_64, for any number of slots and after
any run from `scheduler_init`, what a task has done and what the machine has of it are a run of its
program alone: it starts at its entry point, a system call reads its registers and sets the one of
the result, and interrupts and the other tasks are not seen. -/
theorem tasks_run_alone :
    ∀ T s mem cpu es m, Run (TaskStep x64Calls T) ⟨schedulerInit T s, mem, cpu⟩ es m →
      ∀ i, Run (Alone x64Calls T i) none (es.filterMap (TaskEvent.actOf i)) (m.view x64 i) :=
  fun _ _ _ _ _ _ h => run_alone h

/-- Of two tasks, the first makes a system call that returns 42 and is interrupted: what the machine
has of it is what it called with, but for the result. -/
theorem tasks_run_alone_call :
    ∃ T, ∃ es : List (TaskEvent Reg64 64), ∃ m : Machine Reg64 64, ∃ c : Context Reg64 64,
      m.sched.currentTask = some 1 ∧
      Run (Alone x64Calls T 0) none (es.filterMap (TaskEvent.actOf 0)) (m.view x64 0) ∧
      es.filterMap (TaskEvent.actOf 0) =
        [.start 0x8000000000, .compute c, .call (x64Calls.regsOf c) 42] ∧
      m.view x64 0 = some { c with regs := Function.update c.regs .rax 42 } := by
  let T : TaskTable := ⟨10, 0x300000, rfl⟩
  let idle : Sched := ⟨fun _ => ⟨0, 0, false⟩, 0, none, 0⟩
  let c : Context Reg64 64 := ⟨fun _ => 7, 0x8000000123, 0x246, 0x301000, 0x1B, 0x23⟩
  let m₀ : Machine Reg64 64 := ⟨schedulerInit T idle, fun _ => 0, c⟩
  let c₁ := taskCreateUser x64 T m₀.sched m₀.mem 0x8000000000
  let c₂ := taskCreateUser x64 T c₁.1 c₁.2 0x8000001000
  let s₁ := (schedule T c₂.1 0x90000).2
  have hidle : c₂.1.currentTask = none := by decide +kernel
  have hfirst : s₁.currentTask = some 0 := by decide +kernel
  have htss : s₁.tssStack = T.kernelStackTop 0 := by decide +kernel
  have hsecond : ∀ sp, (schedule T s₁ sp).2.currentTask = some 1 := fun _ => rfl
  let st := x64Calls.enter c [] ⟨c₂.2, s₁.tssStack⟩
  let mem := Function.update st.mem (x64Calls.field st.sp .rax) 42
  have hregs : x64Calls.readRegs st.mem st.sp = x64Calls.regsOf c :=
    Calls.readRegs_enter (by decide +kernel) rfl (by decide +kernel)
  have hkeeps : ∀ i ≠ 0, KeepsStack T i st.mem mem := fun i hi =>
    keepsStack_other (n := x64.frameBytes) hi (by decide) fun a ha => Function.update_of_ne (by
      have hfield : x64Calls.field st.sp .rax = T.kernelStackTop 0 - x64.frameBytes + 112 := by
        decide +kernel
      have htop : T.kernelStackTop 0 = 0x301010 := by decide
      have hbytes : x64.frameBytes = 160 := by decide
      omega) ..
  have hboot : TaskStep x64Calls T ⟨c₂.1, c₂.2, c⟩ .tick
      ⟨s₁, c₂.2, leave x64 c₂.2 (schedule T c₂.1 0x90000).1 c.regs⟩ :=
    .boot c.regs hidle (fun _ _ _ _ => rfl) Prod.mk.eta.symm
  have hcompute : TaskStep x64Calls T
      ⟨s₁, c₂.2, leave x64 c₂.2 (schedule T c₂.1 0x90000).1 c.regs⟩ (.compute 0 c)
      ⟨s₁, c₂.2, c⟩ := .compute c hfirst fun _ _ _ _ _ => rfl
  have hcall : TaskStep x64Calls T ⟨s₁, c₂.2, c⟩ (.call 0 (x64Calls.readRegs st.mem st.sp) 42)
      ⟨s₁, mem, x64Calls.leave mem st.sp c.regs⟩ :=
    .call 42 c.regs hfirst rfl rfl (hregs ▸ by decide) hkeeps fun _ _ _ => rfl
  let cpu := x64Calls.leave mem st.sp c.regs
  let st' := enter x64 cpu ⟨mem, s₁.tssStack⟩
  have htick : TaskStep x64Calls T ⟨s₁, mem, cpu⟩ .tick
      ⟨(schedule T s₁ st'.sp).2, st'.mem, leave x64 st'.mem (schedule T s₁ st'.sp).1 c.regs⟩ :=
    .tick c.regs hfirst rfl (fun _ _ _ _ _ => rfl) (fun _ _ _ => rfl) Prod.mk.eta.symm
  have hrun : Run (TaskStep x64Calls T) m₀ _ _ :=
    .more (.create 0x8000000000 rfl (by decide)) (.more (.create (m := ⟨c₁.1, c₁.2, c⟩) 0x8000001000
      (by decide +kernel) (by decide +kernel))
      (.more hboot (.more hcompute (.more hcall (.one htick)))))
  have halone := tasks_run_alone T idle _ c _ _ hrun 0
  refine ⟨T, _, _, c, hsecond _, halone, by rw [hregs]; rfl, ?_⟩
  rw [hregs] at halone
  -- the steps of the program alone, one by one
  have hseen : Run (Alone x64Calls T 0) none
      [.start 0x8000000000, .compute c, .call (x64Calls.regsOf c) 42] _ := halone
  obtain - | ⟨⟨⟩, hseen⟩ := hseen
  obtain - | ⟨⟨⟩, hseen⟩ := hseen
  obtain - | ⟨hstep, ⟨⟩⟩ := hseen
  generalize x64Calls.regsOf c = regs at hstep
  generalize Machine.view x64 _ 0 = v at hstep
  cases hstep
  rfl

/-- On i386 it is so of the general registers, the instruction pointer, the flags and the stack
pointer of tasks that go on after their interrupts; the data segments are shared by all. -/
theorem general_registers_run_alone :
    ∀ T s mem cpu es m, Run (TaskStep i386Calls T) ⟨schedulerInit T s, mem, cpu⟩ es m →
      ∀ i, Run (Alone i386Calls T i) none (es.filterMap (TaskEvent.actOf i)) (m.view i386 i) :=
  fun _ _ _ _ _ _ h => run_alone h

end ZeptoOS.Core
