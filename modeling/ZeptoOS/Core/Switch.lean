import ZeptoOS.Core.Scheduler
import ZeptoOS.Lib.Run

/-!
# Core — Switch

Context switches, from the timer interrupt of one task to the `iret` into the next.  `Switch` is
one event of a machine whose programs run in user mode: a task is created, the current task
computes, or the timer interrupts.  The handlers of an interrupt may write what they like, but on
the stack they run on only below its pointer, and on no other kernel stack; a task may change its
own kernel stack too, by system calls that return before the timer interrupts.

`lastContext` is what a task had in the processor when it was last interrupted, or what it is to
start with.  Under `Saved`, every task but the current one has just that in its frame
(`saved_switch`), and so `context_switch_transparent`: a switch puts it back.
-/

namespace ZeptoOS.Core
open Lib

/-- The scheduler's state, the memory, and the processor in user mode. -/
structure Machine (R : Type) (w : ℕ) where
  sched : Sched
  mem : ℕ → BitVec w
  cpu : Context R w

/-- What happens to a machine; a tick says which task it interrupts, and in what context. -/
inductive UserEvent (R : Type) (w : ℕ) where
  | create (i : ℕ) (entryPoint : BitVec w)
  | user
  | tick (interrupted : Option (ℕ × Context R w))

/-- The words of the kernel stack of slot `i` are the same in both memories. -/
def KeepsStack {w : ℕ} (T : TaskTable) (i : ℕ) (mem mem' : ℕ → BitVec w) : Prop :=
  ∀ a, T.kernelStack i ≤ a → a < T.kernelStackTop i → mem' a = mem a

section

variable {R : Type} [DecidableEq R] {w : ℕ}

/-- One event.  The first switch is not from user mode: the timer then interrupts the idle loop of
`kmain`. -/
inductive Switch (A : Arch R w) (T : TaskTable) :
    Machine R w → UserEvent R w → Machine R w → Prop where
  | create (m : Machine R w) (entryPoint : BitVec w) :
      Switch A T m (.create m.sched.taskCount entryPoint)
        ⟨(taskCreateUser A T m.sched m.mem entryPoint).1,
          (taskCreateUser A T m.sched m.mem entryPoint).2, m.cpu⟩
  | user {m : Machine R w} {c : ℕ} {mem : ℕ → BitVec w} (cpu : Context R w)
      (hc : m.sched.currentTask = some c) (hmem : ∀ i ≠ c, KeepsStack T i m.mem mem) :
      Switch A T m .user ⟨m.sched, mem, cpu⟩
  | boot {m : Machine R w} {sp ret : ℕ} {mem : ℕ → BitVec w} {s' : Sched} (regs : R → BitVec w)
      (hc : m.sched.currentTask = none) (hmem : ∀ i, KeepsStack T i m.mem mem)
      (h : schedule T m.sched sp = (ret, s')) :
      Switch A T m (.tick none) ⟨s', mem, leave A mem ret regs⟩
  | timer {m : Machine R w} {c ret : ℕ} {st : Stack (BitVec w)} {mem : ℕ → BitVec w} {s' : Sched}
      (regs : R → BitVec w) (hc : m.sched.currentTask = some c)
      (henter : enter A m.cpu ⟨m.mem, m.sched.tssStack⟩ = st)
      (hmem : ∀ i ≠ c, KeepsStack T i st.mem mem)
      (hframe : ∀ a, st.sp ≤ a → a < m.sched.tssStack → mem a = st.mem a)
      (h : schedule T m.sched st.sp = (ret, s')) :
      Switch A T m (.tick (some (c, m.cpu))) ⟨s', mem, leave A mem ret regs⟩

/-- The context a task has on its first run. -/
def firstContext (T : TaskTable) (i : ℕ) (entryPoint : BitVec w) : Context R w where
  regs _ := 0
  ip := entryPoint
  flags := 0x202
  sp := BitVec.ofNat w (T.userStackTop i)
  cs := 0x1B
  ss := 0x23

/-- What an event says of the context task `i` is to be resumed in. -/
def contextOf (T : TaskTable) (i : ℕ) : UserEvent R w → Option (Context R w)
  | .create j entryPoint => if j = i then some (firstContext T i entryPoint) else none
  | .tick (some (j, cpu)) => if j = i then some cpu else none
  | .user | .tick none => none

/-- The context task `i` had when it was last interrupted in `es`, and that of its first run where
it was not. -/
def lastContext (T : TaskTable) (i : ℕ) (es : List (UserEvent R w)) : Option (Context R w) :=
  es.reverse.findSome? (contextOf T i)

omit [DecidableEq R] in
theorem lastContext_append (T : TaskTable) (i : ℕ) (es : List (UserEvent R w))
    (e : UserEvent R w) : lastContext T i (es ++ [e]) =
      (contextOf T i e).or (lastContext T i es) := by
  rw [lastContext, List.reverse_append, List.findSome?_append]
  exact congrArg (Option.or · _) (List.findSome?_singleton ..)

/-- The frame of task `i` is on the top of its kernel stack, with its last context in it. -/
def FrameSaved (A : Arch R w) (T : TaskTable) (es : List (UserEvent R w)) (mem : ℕ → BitVec w)
    (i sp : ℕ) : Prop :=
  sp = T.kernelStackTop i - A.frameBytes ∧
    ∀ regs, lastContext T i es = some (leave A mem sp regs)

/-- Between two events: every task but the current one has its frame saved, and the TSS has the
stack of the current one. -/
structure Saved (A : Arch R w) (T : TaskTable) (es : List (UserEvent R w)) (m : Machine R w) :
    Prop where
  count : m.sched.taskCount ≤ T.maxTasks
  active : ∀ i < m.sched.taskCount, (m.sched.tasks i).active = true
  frames : ∀ i < m.sched.taskCount, m.sched.currentTask ≠ some i →
    FrameSaved A T es m.mem i (m.sched.tasks i).stackPointer
  current : ∀ c, m.sched.currentTask = some c →
    c < m.sched.taskCount ∧ m.sched.tssStack = T.kernelStackTop c

variable {A : Arch R w} {T : TaskTable} {es : List (UserEvent R w)} {m : Machine R w}

theorem FrameSaved.congr {es' : List (UserEvent R w)} {mem mem' : ℕ → BitVec w} {i sp : ℕ}
    (h : FrameSaved A T es mem i sp) (hes : lastContext T i es' = lastContext T i es)
    (hmem : KeepsStack T i mem mem') : FrameSaved A T es' mem' i sp := by
  refine ⟨h.1, fun regs => ?_⟩
  have hfit : A.frameBytes ≤ 4096 := A.fits
  have htop : T.kernelStackTop i = T.kernelStack i + 4096 := rfl
  have hsp := h.1
  rw [hes, h.2 regs, leave_congr fun a h₁ h₂ => hmem a (by omega) (by omega)]

/-- The kernel stacks are apart. -/
theorem TaskTable.kernelStack_apart (T : TaskTable) {i j a : ℕ} (hne : i ≠ j)
    (h₁ : T.kernelStack i ≤ a) (h₂ : a < T.kernelStackTop i) :
    a < T.kernelStack j ∨ T.kernelStackTop j ≤ a := by
  simp only [TaskTable.kernelStack, TaskTable.kernelStackTop] at *
  omega

theorem Saved.create (h : Saved A T es m) (entryPoint : BitVec w) :
    Saved A T (es ++ [.create m.sched.taskCount entryPoint])
      ⟨(taskCreateUser A T m.sched m.mem entryPoint).1,
        (taskCreateUser A T m.sched m.mem entryPoint).2, m.cpu⟩ := by
  -- the event says nothing of the other tasks
  have hlast : ∀ {i}, i ≠ m.sched.taskCount →
      lastContext T i (es ++ [.create m.sched.taskCount entryPoint]) = lastContext T i es :=
    fun hi => by rw [lastContext_append, contextOf, if_neg (Ne.symm hi), Option.none_or]
  by_cases hlt : m.sched.taskCount < T.maxTasks
  · have hfit : A.frameBytes ≤ 4096 := A.fits
    refine ⟨?_, ?_, ?_, fun c hc => ?_⟩ <;> dsimp only
    · rwa [taskCreateUser_taskCount hlt]
    · rw [taskCreateUser_taskCount hlt]
      exact forall_created (P := fun _ t => t.active = true) hlt rfl h.active
    · rw [taskCreateUser_taskCount hlt, taskCreateUser_currentTask hlt]
      refine forall_created (P := fun i t => m.sched.currentTask ≠ some i →
        FrameSaved A T _ _ i t.stackPointer) hlt (fun _ => ⟨rfl, fun regs => ?_⟩) fun i hi hc => ?_
      · rw [leave_created hlt, lastContext_append, contextOf, if_pos rfl]
        rfl
      · -- the frame built is on the stack of another task
        have hne := Nat.ne_of_lt hi
        refine (h.frames i hi hc).congr (hlast hne) fun a h₁ h₂ => taskCreateUser_other hlt ?_
        rcases T.kernelStack_apart hne h₁ h₂ with hlow | hhigh
        · exact .inl (Nat.lt_of_lt_of_le hlow (by rw [TaskTable.kernelStackTop]; omega))
        · exact .inr hhigh
    · dsimp only at hc
      rw [taskCreateUser_currentTask hlt] at hc
      obtain ⟨hc₁, hc₂⟩ := h.current c hc
      rw [taskCreateUser_sched hlt]
      exact ⟨Nat.lt_succ_of_lt hc₁, hc₂⟩
  · rw [taskCreateUser_full (Nat.not_lt.mp hlt)]
    refine ⟨h.count, h.active, fun i hi hc => ?_, h.current⟩
    exact (h.frames i hi hc).congr (hlast (Nat.ne_of_lt hi)) fun _ _ _ => rfl

theorem Saved.user (h : Saved A T es m) {c : ℕ} (hc : m.sched.currentTask = some c)
    {mem : ℕ → BitVec w} (hmem : ∀ i ≠ c, KeepsStack T i m.mem mem) (cpu : Context R w) :
    Saved A T (es ++ [.user]) ⟨m.sched, mem, cpu⟩ where
  count := h.count
  active := h.active
  frames i hi hne :=
    (h.frames i hi hne).congr (by rw [lastContext_append]; rfl) (hmem i fun e => hne (e ▸ hc))
  current := h.current

/-- **A switch.**  Where the frames of all tasks are saved, that of the current one at the pointer
`schedule` is given, it goes on with the last context of the task it chooses. -/
theorem saved_switch {s s' : Sched} {mem : ℕ → BitVec w} {sp ret : ℕ}
    (hcount : s.taskCount ≤ T.maxTasks) (hactive : ∀ i < s.taskCount, (s.tasks i).active = true)
    (hsaved : ∀ i < s.taskCount,
      FrameSaved A T es mem i ((saveStackPointer s sp).tasks i).stackPointer)
    (hpos : 0 < s.taskCount) (h : schedule T s sp = (ret, s')) (regs : R → BitVec w) :
    Saved A T es ⟨s', mem, leave A mem ret regs⟩ ∧
      ∀ c, s'.currentTask = some c → lastContext T c es = some (leave A mem ret regs) := by
  obtain ⟨t, hlt, -, hsched⟩ := schedule_active (T := T) hpos (hactive 0 hpos) sp
  rw [h] at hsched
  obtain ⟨rfl, rfl⟩ := Prod.mk.inj hsched
  refine ⟨⟨?_, fun i hi => ?_, fun i hi _ => ?_, fun c hc => ?_⟩, fun c hc => ?_⟩
  · simpa using hcount
  · simpa using hactive i (by simpa using hi)
  · exact hsaved i (by simpa using hi)
  · obtain rfl := Option.some.inj hc
    exact ⟨by simpa using hlt, rfl⟩
  · obtain rfl := Option.some.inj hc
    exact (hsaved _ hlt).2 regs

omit [DecidableEq R] in
theorem TaskTable.aligned_kernelStackTop (A : Arch R w) (T : TaskTable) (i : ℕ) :
    T.kernelStackTop i % A.align = 0 := by
  have hmod : T.kernelStackTop i % 16 = 0 := by
    have haligned := T.aligned
    simp only [kernelStackTop, kernelStack]
    omega
  exact Nat.mod_eq_zero_of_dvd (Nat.dvd_trans A.align_dvd (Nat.dvd_of_mod_eq_zero hmod))

/-- An interrupt saves the frame of the current task, and leaves those of the others. -/
theorem Saved.interrupt (h : Saved A T es m) {c : ℕ} (hc : m.sched.currentTask = some c)
    {st : Stack (BitVec w)} {mem : ℕ → BitVec w}
    (henter : enter A m.cpu ⟨m.mem, m.sched.tssStack⟩ = st)
    (hmem : ∀ i ≠ c, KeepsStack T i st.mem mem)
    (hframe : ∀ a, st.sp ≤ a → a < m.sched.tssStack → mem a = st.mem a) :
    ∀ i < m.sched.taskCount, FrameSaved A T (es ++ [.tick (some (c, m.cpu))]) mem i
      ((saveStackPointer m.sched st.sp).tasks i).stackPointer := by
  obtain ⟨hlt, htss⟩ := h.current c hc
  have hal : (⟨m.mem, m.sched.tssStack⟩ : Stack (BitVec w)).sp % A.align = 0 := by
    dsimp only
    rw [htss]
    exact T.aligned_kernelStackTop A c
  have hfit : A.frameBytes ≤ (⟨m.mem, m.sched.tssStack⟩ : Stack (BitVec w)).sp := by
    dsimp only
    rw [htss]
    exact frameBytes_le_kernelStackTop c
  have hsp : st.sp = T.kernelStackTop c - A.frameBytes := by
    rw [← henter, enter_sp hal, htss]
  rw [htss] at hframe
  have hbytes : A.frameBytes ≤ 4096 := A.fits
  have htop : T.kernelStackTop c = T.kernelStack c + 4096 := rfl
  intro i hi
  rw [saveStackPointer_stackPointer]
  split
  · -- the interrupted task: what was pushed is what a return pops
    rename_i hi'
    obtain rfl := Option.some.inj (hc.symm.trans hi')
    refine ⟨hsp, fun regs => ?_⟩
    have hleave : leave A mem st.sp regs = m.cpu := by
      rw [leave_congr (fun a h₁ h₂ => hframe a h₁ (by omega)), ← henter, leave_enter hal hfit]
    rw [hleave, lastContext_append, contextOf, if_pos rfl]
    rfl
  · -- another task: nothing was written to its stack
    rename_i hi'
    have hne : i ≠ c := fun e => hi' (e ▸ hc)
    refine (h.frames i hi hi').congr ?_ fun a h₁ h₂ => ?_
    · rw [lastContext_append, contextOf, if_neg (Ne.symm hne), Option.none_or]
    · rw [hmem i hne a h₁ h₂, ← henter, enter_other hal hfit]
      dsimp only
      rw [htss]
      rcases T.kernelStack_apart hne h₁ h₂ with h | h
      · exact .inl (by omega)
      · exact .inr h

/-- Every event keeps `Saved`, and a tick goes on with a last context. -/
theorem Saved.step (h : Saved A T es m) {e : UserEvent R w} {m' : Machine R w}
    (hstep : Switch A T m e m') : Saved A T (es ++ [e]) m' ∧
      ∀ i c, e = .tick i → m'.sched.currentTask = some c →
        lastContext T c (es ++ [e]) = some m'.cpu := by
  cases hstep with
  | create entryPoint =>
      exact ⟨h.create entryPoint, fun _ _ he => by cases he⟩
  | user cpu hc hmem => exact ⟨h.user hc hmem cpu, fun _ _ he => by cases he⟩
  | boot regs hc hmem hsched =>
      have hlast : ∀ i, lastContext T i (es ++ [.tick none]) = lastContext T i es :=
        fun i => by rw [lastContext_append]; rfl
      by_cases h₀ : m.sched.taskCount = 0
      · -- there is no task yet: back to the idle loop
        rw [schedule_empty h₀] at hsched
        obtain ⟨rfl, rfl⟩ := Prod.mk.inj hsched
        refine ⟨⟨h.count, h.active, fun i hi => ?_, h.current⟩, fun _ c _ hc' => ?_⟩
        · exact absurd (h₀ ▸ hi) (Nat.not_lt_zero i)
        · cases hc.symm.trans hc'
      · obtain ⟨hsaved, hcpu⟩ := saved_switch h.count h.active (fun i hi => by
          rw [saveStackPointer_stackPointer, if_neg (by rw [hc]; simp)]
          exact (h.frames i hi (by rw [hc]; simp)).congr (hlast i) (hmem i))
          (Nat.pos_of_ne_zero h₀) hsched regs
        exact ⟨hsaved, fun _ c _ => hcpu c⟩
  | timer regs hc henter hmem hframe hsched =>
      obtain ⟨hlt, -⟩ := h.current _ hc
      obtain ⟨hsaved, hcpu⟩ := saved_switch h.count h.active
        (h.interrupt hc henter hmem hframe) (by omega) hsched regs
      exact ⟨hsaved, fun _ c _ => hcpu c⟩

/-- After the events `es`: the TSS has the top of the kernel stack of the current task, and a task
that a tick goes on with has its last context back. -/
def Transparent (A : Arch R w) (T : TaskTable) (es : List (UserEvent R w)) (m : Machine R w) :
    Prop :=
  (∀ c, m.sched.currentTask = some c → m.sched.tssStack = T.kernelStackTop c) ∧
    ∀ i m' c, Switch A T m (.tick i) m' → m'.sched.currentTask = some c →
      lastContext T c (es ++ [.tick i]) = some m'.cpu

theorem transparent_of_run {s : Sched} {mem : ℕ → BitVec w} {cpu : Context R w}
    (h : Run (Switch A T) ⟨schedulerInit T s, mem, cpu⟩ es m) : Transparent A T es m := by
  have hinit : Saved A T [] ⟨schedulerInit T s, mem, cpu⟩ :=
    ⟨Nat.zero_le _, fun i hi => absurd hi (Nat.not_lt_zero i),
      fun i hi => absurd hi (Nat.not_lt_zero i), fun c hc => by cases hc⟩
  have hsaved : Saved A T es m := h.inv_history (fun hs hstep => (hs.step hstep).1) hinit
  exact ⟨fun c hc => (hsaved.current c hc).2,
    fun i m' c hstep => (hsaved.step hstep).2 i c rfl⟩

end

/-- **Context switches are transparent.**  On both targets, for any number of slots, after any run
from `scheduler_init`. -/
theorem context_switch_transparent :
    (∀ T s mem cpu es m, Run (Switch x64 T) ⟨schedulerInit T s, mem, cpu⟩ es m →
      Transparent x64 T es m) ∧
    (∀ T s mem cpu es m, Run (Switch i386 T) ⟨schedulerInit T s, mem, cpu⟩ es m →
      Transparent i386 T es m) :=
  ⟨fun _ _ _ _ _ _ h => transparent_of_run h, fun _ _ _ _ _ _ h => transparent_of_run h⟩

/-- Of two tasks, the first runs and is interrupted: the second is entered at its entry point. -/
theorem context_switch_transparent_second_task :
    ∃ T es, ∃ m m' : Machine Reg64 64, ∃ i,
      Switch x64 T m (.tick (some (0, i))) m' ∧ m'.sched.currentTask = some 1 ∧
      m.sched.tssStack = T.kernelStackTop 0 ∧ es.length = 4 ∧
      m'.cpu = firstContext T 1 0x8000001000 ∧
      lastContext T 1 (es ++ [.tick (some (0, i))]) = some m'.cpu := by
  let T : TaskTable := ⟨10, 0x300000, rfl⟩
  let idle : Sched := ⟨fun _ => ⟨0, 0, false⟩, 0, none, 0⟩
  let i : Context Reg64 64 := ⟨fun _ => 7, 0x8000000123, 0x246, 0x301000, 0x1B, 0x23⟩
  let m₀ : Machine Reg64 64 := ⟨schedulerInit T idle, fun _ => 0, i⟩
  let c₁ := taskCreateUser x64 T m₀.sched m₀.mem 0x8000000000
  let c₂ := taskCreateUser x64 T c₁.1 c₁.2 0x8000001000
  have hidle : c₂.1.currentTask = none := by decide +kernel
  have hfirst : (schedule T c₂.1 0x90000).2.currentTask = some 0 := by decide +kernel
  have hsecond : (schedule T (schedule T c₂.1 0x90000).2
      (enter x64 i ⟨c₂.2, (schedule T c₂.1 0x90000).2.tssStack⟩).sp).2.currentTask = some 1 := by
    decide +kernel
  -- from here on only the current tasks matter, not what the calls compute
  generalize hsched₁ : schedule T c₂.1 0x90000 = r₁ at hfirst hsecond
  obtain ⟨ret₁, s₁⟩ := r₁
  generalize henter : enter x64 i ⟨c₂.2, s₁.tssStack⟩ = st at hsecond
  generalize hsched₂ : schedule T s₁ st.sp = r₂ at hsecond
  obtain ⟨ret₂, s₂⟩ := r₂
  have hboot : Switch x64 T ⟨c₂.1, c₂.2, i⟩ (.tick none) ⟨s₁, c₂.2, leave x64 c₂.2 ret₁ i.regs⟩ :=
    .boot i.regs hidle (fun _ _ _ _ => rfl) hsched₁
  have huser : Switch x64 T ⟨s₁, c₂.2, leave x64 c₂.2 ret₁ i.regs⟩ .user ⟨s₁, c₂.2, i⟩ :=
    .user i hfirst fun _ _ _ _ _ => rfl
  have hrun : Run (Switch x64 T) m₀ _ ⟨s₁, c₂.2, i⟩ :=
    .more (.create m₀ 0x8000000000)
      (.more (.create ⟨c₁.1, c₁.2, i⟩ 0x8000001000) (.more hboot (.one huser)))
  have htick : Switch x64 T ⟨s₁, c₂.2, i⟩ (.tick (some (0, i)))
      ⟨s₂, st.mem, leave x64 st.mem ret₂ i.regs⟩ :=
    .timer i.regs hfirst henter (fun _ _ _ _ _ => rfl) (fun _ _ _ => rfl) hsched₂
  obtain ⟨htss, hresume⟩ := context_switch_transparent.1 T idle _ i _ _ hrun
  have hlast := hresume _ _ 1 htick hsecond
  exact ⟨T, _, _, _, i, htick, hsecond, htss 0 hfirst, rfl, (Option.some.inj hlast).symm, hlast⟩

end ZeptoOS.Core
