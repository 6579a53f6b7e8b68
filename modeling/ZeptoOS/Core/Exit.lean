import ZeptoOS.Core.Scheduler
import ZeptoOS.Lib.Run

/-!
# Core — Exit

Whether `schedule` goes on with a task that has exited.  `Step` is a call of `task_create_user`, a
timer interrupt, or a `task_exit` with the `int $32` it ends in.

Where the search of `schedule` fails, it returns the stack pointer it was given, which `task_exit`
gives as the one of the task that exits.  So a run never goes on with an inactive task exactly when
each `task_exit` leaves an active task behind (`exited_never_resumed_iff`); `last_exit_resumed` is
the run in which the only task exits.
-/

namespace ZeptoOS.Core
open Lib

/-- `sp` is in the kernel stack of slot `i`. -/
def TaskTable.Belongs (T : TaskTable) (i sp : ℕ) : Prop :=
  T.kernelStack i ≤ sp ∧ sp ≤ T.kernelStackTop i

/-- The kernel stacks are apart. -/
theorem TaskTable.Belongs.unique {T : TaskTable} {i j sp : ℕ} (hi : T.Belongs i sp)
    (hj : T.Belongs j sp) : i = j := by
  simp only [Belongs, kernelStackTop, kernelStack] at hi hj
  omega

/-- What calls the scheduler, with the stack pointer it gives and the one it gets. -/
inductive Event (w : ℕ) where
  | create (mem : ℕ → BitVec w) (entryPoint : BitVec w)
  | timer (sp ret : ℕ)
  | exit (sp ret : ℕ)

/-- The kernel runs on the kernel stack of the current task, and before the first switch on none of
the table. -/
def OnStack (T : TaskTable) (s : Sched) (sp : ℕ) : Prop :=
  match s.currentTask with
  | none => ∀ i < T.maxTasks, ¬ T.Belongs i sp
  | some c => T.Belongs c sp

/-- One event. -/
inductive Step {R : Type} {w : ℕ} (A : Arch R w) (T : TaskTable) :
    Sched → Event w → Sched → Prop where
  | create (s : Sched) (mem : ℕ → BitVec w) (entryPoint : BitVec w) :
      Step A T s (.create mem entryPoint) (taskCreateUser A T s mem entryPoint).1
  | timer {s s' : Sched} {sp ret : ℕ} (hsp : OnStack T s sp) (h : schedule T s sp = (ret, s')) :
      Step A T s (.timer sp ret) s'
  | exit {s s' : Sched} {sp ret : ℕ} (hsp : OnStack T s sp)
      (h : schedule T (taskExit s) sp = (ret, s')) : Step A T s (.exit sp ret) s'

/-- `schedule` does not return a stack pointer of an inactive task. -/
def NeverInactive (T : TaskTable) {w : ℕ} (_ : Sched) (e : Event w) (s' : Sched) : Prop :=
  match e with
  | .create _ _ => True
  | .timer _ ret | .exit _ ret =>
      ∀ i < T.maxTasks, T.Belongs i ret → (s'.tasks i).active = true

/-- A task that exits leaves an active one behind. -/
def ExitLeavesActive {w : ℕ} (s : Sched) (e : Event w) (_ : Sched) : Prop :=
  match e with
  | .create _ _ | .timer _ _ => True
  | .exit _ _ => ∀ c, s.currentTask = some c → ∃ i < s.taskCount, i ≠ c ∧ (s.tasks i).active = true

/-- What the scheduler's state keeps. -/
structure Sane (T : TaskTable) (s : Sched) : Prop where
  count : s.taskCount ≤ T.maxTasks
  /-- The saved stack pointer of a task is in its own stack. -/
  owns : ∀ i < s.taskCount, s.currentTask ≠ some i → T.Belongs i (s.tasks i).stackPointer
  current : ∀ c, s.currentTask = some c → c < s.taskCount ∧ (s.tasks c).active = true
  /-- Before the first switch no task has exited. -/
  idle : s.currentTask = none → ∀ i < s.taskCount, (s.tasks i).active = true

section

variable {R : Type} {w : ℕ} {A : Arch R w} {T : TaskTable} {s s' : Sched} {sp ret : ℕ}

theorem sane_schedulerInit (s : Sched) : Sane T (schedulerInit T s) where
  count := Nat.zero_le _
  owns _ h := absurd h (Nat.not_lt_zero _)
  current _ h := by cases h
  idle _ _ h := absurd h (Nat.not_lt_zero _)

theorem belongs_created (i : ℕ) : T.Belongs i (T.kernelStackTop i - A.frameBytes) := by
  have hfit : A.frameBytes ≤ 4096 := A.fits
  simp only [TaskTable.Belongs, TaskTable.kernelStackTop]
  omega

theorem Sane.create (hs : Sane T s) (mem : ℕ → BitVec w) (entryPoint : BitVec w) :
    Sane T (taskCreateUser A T s mem entryPoint).1 := by
  by_cases h : s.taskCount < T.maxTasks
  · refine ⟨?_, ?_, fun c hc => ?_, fun hc => ?_⟩
    · rwa [taskCreateUser_taskCount h]
    · rw [taskCreateUser_taskCount h, taskCreateUser_currentTask h]
      exact forall_created (P := fun i t => s.currentTask ≠ some i → T.Belongs i t.stackPointer) h
        (fun _ => belongs_created _) hs.owns
    · rw [taskCreateUser_currentTask h] at hc
      obtain ⟨hlt, hact⟩ := hs.current c hc
      rw [taskCreateUser_sched h]
      dsimp only
      rw [Function.update_of_ne (Nat.ne_of_lt hlt)]
      exact ⟨Nat.lt_succ_of_lt hlt, hact⟩
    · rw [taskCreateUser_currentTask h] at hc
      rw [taskCreateUser_taskCount h]
      exact forall_created (P := fun _ t => t.active = true) h rfl (hs.idle hc)
  · rw [taskCreateUser_full (Nat.not_lt.mp h)]
    exact hs

/-- Where a task is active, `schedule` goes on with an active task, and the state is sane after;
before, the current task may have exited. -/
theorem schedule_sane (hcount : s.taskCount ≤ T.maxTasks)
    (howns : ∀ i < s.taskCount, s.currentTask ≠ some i → T.Belongs i (s.tasks i).stackPointer)
    (hsp : OnStack T s sp) {i : ℕ} (hi : i < s.taskCount) (hact : (s.tasks i).active = true)
    (h : schedule T s sp = (ret, s')) :
    (∀ j < T.maxTasks, T.Belongs j ret → (s'.tasks j).active = true) ∧ Sane T s' := by
  obtain ⟨t, hlt, htact, hsched⟩ := schedule_active (T := T) hi hact sp
  rw [h] at hsched
  obtain ⟨rfl, rfl⟩ := Prod.mk.inj hsched
  -- after saving, the current task owns its stack pointer too
  have hsaved : ∀ j < s.taskCount,
      T.Belongs j ((saveStackPointer s sp).tasks j).stackPointer := fun j hj => by
    rw [saveStackPointer_stackPointer]
    split
    · rename_i hc
      rwa [OnStack, hc] at hsp
    · rename_i hc
      exact howns j hj hc
  refine ⟨fun j _ hj => ?_, ?_, fun j hj _ => ?_, fun c hc => ?_, fun hc => ?_⟩
  · obtain rfl := hj.unique (hsaved t hlt)
    simpa using htact
  · simpa using hcount
  · exact hsaved j (by simpa using hj)
  · obtain rfl := Option.some.inj hc
    exact ⟨by simpa using hlt, by simpa using htact⟩
  · cases hc

theorem Sane.timer (hs : Sane T s) (hsp : OnStack T s sp) (h : schedule T s sp = (ret, s')) :
    (∀ j < T.maxTasks, T.Belongs j ret → (s'.tasks j).active = true) ∧ Sane T s' := by
  cases hc : s.currentTask with
  | some c =>
      obtain ⟨hlt, hact⟩ := hs.current c hc
      exact schedule_sane hs.count hs.owns hsp hlt hact h
  | none =>
      by_cases h₀ : s.taskCount = 0
      · rw [schedule_empty h₀] at h
        obtain ⟨rfl, rfl⟩ := Prod.mk.inj h
        rw [OnStack, hc] at hsp
        exact ⟨fun j hj hb => absurd hb (hsp j hj), hs⟩
      · have hpos := Nat.pos_of_ne_zero h₀
        exact schedule_sane hs.count hs.owns hsp hpos (hs.idle hc 0 hpos) h

theorem taskExit_onStack (hsp : OnStack T s sp) : OnStack T (taskExit s) sp := by
  rwa [OnStack, taskExit_currentTask]

/-- An exit that leaves an active task behind. -/
theorem Sane.exit (hs : Sane T s) (hsp : OnStack T s sp)
    (hleaves : ∀ c, s.currentTask = some c → ∃ i < s.taskCount, i ≠ c ∧ (s.tasks i).active = true)
    (h : schedule T (taskExit s) sp = (ret, s')) :
    (∀ j < T.maxTasks, T.Belongs j ret → (s'.tasks j).active = true) ∧ Sane T s' := by
  cases hc : s.currentTask with
  | none =>
      have hexit : taskExit s = s := by rw [taskExit, hc]
      rw [hexit] at h
      exact hs.timer hsp h
  | some c =>
      obtain ⟨i, hi, hne, hact⟩ := hleaves c hc
      refine schedule_sane (by simpa using hs.count) (fun j hj hj' => ?_) (taskExit_onStack hsp)
        (i := i) (by simpa using hi) ?_ h
      · rw [taskExit_stackPointer]
        exact hs.owns j (by simpa using hj) (by simpa using hj')
      · rw [taskExit_active, if_neg (by rw [hc]; exact fun h => hne (Option.some.inj h).symm), hact]

/-- An exit that leaves no active task behind goes on with the task that exits. -/
theorem Sane.last_exit (hs : Sane T s) (hsp : OnStack T s sp) {c : ℕ}
    (hc : s.currentTask = some c)
    (hlast : ∀ i < s.taskCount, i ≠ c → (s.tasks i).active = false)
    (h : schedule T (taskExit s) sp = (ret, s')) :
    T.Belongs c ret ∧ (s'.tasks c).active = false := by
  obtain ⟨hlt, -⟩ := hs.current c hc
  have hidle : ∀ i < (taskExit s).taskCount, ((taskExit s).tasks i).active = false :=
    fun i hi => by
      rw [taskExit_active]
      split
      · rfl
      · rename_i hi'
        refine hlast i (by simpa using hi) fun e => hi' ?_
        rw [hc, e]
  rw [schedule_idle (by rw [taskExit_taskCount]; omega) hidle] at h
  obtain ⟨rfl, rfl⟩ := Prod.mk.inj h
  rw [OnStack, hc] at hsp
  refine ⟨hsp, ?_⟩
  rw [saveStackPointer_active, taskExit_active, if_pos hc]

/-- **An exited task never runs again exactly where it is never the last.**  From
`scheduler_init`, for any number of slots, in any run: `schedule` never returns a stack pointer of
an inactive task if and only if each task that exits leaves an active one behind. -/
theorem exited_never_resumed_iff (A : Arch R w) (T : TaskTable) (s : Sched) (es : List (Event w)) :
    Along (Step A T) (NeverInactive T) (schedulerInit T s) es ↔
      Along (Step A T) ExitLeavesActive (schedulerInit T s) es := by
  refine Along.iff_of_inv (I := Sane T) (fun {s e s'} hs h => ?_) (sane_schedulerInit s)
  cases h with
  | create mem entryPoint => exact ⟨Iff.rfl, fun _ => hs.create mem entryPoint⟩
  | timer hsp h =>
      obtain ⟨hnever, hs'⟩ := hs.timer hsp h
      exact ⟨⟨fun _ => trivial, fun _ => hnever⟩, fun _ => hs'⟩
  | exit hsp h =>
      refine ⟨⟨fun hnever c hc => ?_, fun hleaves => (hs.exit hsp hleaves h).1⟩,
        fun hleaves => (hs.exit hsp hleaves h).2⟩
      by_contra hlast
      push Not at hlast
      obtain ⟨hb, hact⟩ := hs.last_exit hsp hc
        (fun i hi hne => Bool.not_eq_true _ ▸ hlast i hi hne) h
      have hlt := (hs.current c hc).1
      rw [hnever c (Nat.lt_of_lt_of_le hlt hs.count) hb] at hact
      cases hact

end

/-- The only task, started by a timer interrupt, exits: `schedule` returns its own stack pointer,
and `task_exit` returns to it. -/
theorem last_exit_resumed :
    ∃ s₁ s₂ s₃ : Sched, ∃ T : TaskTable, T.maxTasks = 10 ∧
      Step x64 T (schedulerInit T ⟨fun _ => ⟨0, 0, false⟩, 0, none, 0⟩)
        (.create (fun _ => 0) 0x8000000000) s₁ ∧
      Step x64 T s₁ (.timer 0x90000 0x300F70) s₂ ∧
      Step x64 T s₂ (.exit 0x300F00 0x300F00) s₃ ∧
      T.Belongs 0 0x300F00 ∧ (s₃.tasks 0).active = false := by
  let T : TaskTable := ⟨10, 0x300000, rfl⟩
  let s₁ := (taskCreateUser x64 T (schedulerInit T ⟨fun _ => ⟨0, 0, false⟩, 0, none, 0⟩)
    (fun _ => 0) 0x8000000000).1
  let s₂ := (schedule T s₁ 0x90000).2
  have hboot : OnStack T s₁ 0x90000 := fun i _ h => by
    have hle : 0x300000 + 8224 * i + 16 ≤ 0x90000 := h.1
    omega
  have hstack : T.Belongs 0 0x300F00 := ⟨by decide, by decide⟩
  exact ⟨s₁, s₂, (schedule T (taskExit s₂) 0x300F00).2, T, rfl, .create _ _ _,
    .timer hboot (Prod.ext (by decide +kernel) rfl),
    .exit hstack (Prod.ext (by decide +kernel) rfl), hstack, by decide +kernel⟩

end ZeptoOS.Core
