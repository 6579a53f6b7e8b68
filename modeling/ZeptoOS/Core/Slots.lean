import ZeptoOS.Core.Scheduler
import ZeptoOS.Lib.Run

/-!
# Core — Slots

The slots of the task table over runs of `task_create_user`, `schedule` and `task_exit`, in any
order.  `task_create_user` takes the slots in turn, and no call gives one back: so it makes one more
task active in the first `MAX_TASKS` calls, and nothing in any later one, however many tasks have
exited by then (`create_fills_slot`, `exited_slot_not_reused`).
-/

namespace ZeptoOS.Core
open Lib

/-- A call of the scheduler's functions. -/
inductive SchedCall (w : ℕ) where
  | create (mem : ℕ → BitVec w) (entryPoint : BitVec w)
  | schedule (sp : ℕ)
  | exit

section

variable {R : Type} {w : ℕ} (A : Arch R w) (T : TaskTable)

/-- The state after a call. -/
def SchedCall.after (s : Sched) : SchedCall w → Sched
  | .create mem entryPoint => (taskCreateUser A T s mem entryPoint).1
  | .schedule sp => (Core.schedule T s sp).2
  | .exit => taskExit s

/-- One call. -/
def SchedStep (s : Sched) (call : SchedCall w) (s' : Sched) : Prop := s' = call.after A T s

/-- `s` is reached from `scheduler_init` by `calls`. -/
def SchedRun (calls : List (SchedCall w)) (s : Sched) : Prop :=
  ∃ s₀, Run (SchedStep A T) (schedulerInit T s₀) calls s

/-- The calls of `task_create_user`. -/
def creations (calls : List (SchedCall w)) : ℕ :=
  calls.countP fun
    | .create _ _ => true
    | _ => false

/-- What the calls keep: the slots taken are the first, each with its own pid, and the others are
inactive. -/
structure Slots (s : Sched) (created : ℕ) : Prop where
  count : s.taskCount = min created T.maxTasks
  pid : ∀ i < s.taskCount, (s.tasks i).pid = i + 1
  inactive : ∀ i, s.taskCount ≤ i → i < T.maxTasks → (s.tasks i).active = false
  current : ∀ c, s.currentTask = some c → c < s.taskCount

end

section

variable {R : Type} {w : ℕ} {A : Arch R w} {T : TaskTable} {s s' : Sched} {n : ℕ}

theorem slots_init (s : Sched) : Slots T (schedulerInit T s) 0 where
  count := (Nat.zero_min _).symm
  pid _ h := absurd h (Nat.not_lt_zero _)
  inactive i _ hi := by
    simp only [schedulerInit, if_pos hi]
  current _ h := by cases h

theorem Slots.create (hs : Slots T s n) (mem : ℕ → BitVec w) (entryPoint : BitVec w) :
    Slots T (taskCreateUser A T s mem entryPoint).1 (n + 1) := by
  have hcount := hs.count
  by_cases h : s.taskCount < T.maxTasks
  · rw [taskCreateUser_sched h]
    refine ⟨?_, fun i hi => ?_, fun i hi hmax => ?_, fun c hc => ?_⟩
    · dsimp only
      omega
    · rcases Nat.lt_succ_iff_lt_or_eq.mp hi with hlt | rfl
      · dsimp only
        rw [Function.update_of_ne (Nat.ne_of_lt hlt)]
        exact hs.pid i hlt
      · dsimp only
        rw [Function.update_self]
    · dsimp only at hi ⊢
      rw [Function.update_of_ne (by omega)]
      exact hs.inactive i (by omega) hmax
    · exact Nat.lt_succ_of_lt (hs.current c hc)
  · rw [taskCreateUser_full (Nat.not_lt.mp h)]
    refine ⟨?_, hs.pid, hs.inactive, hs.current⟩
    dsimp only
    omega

/-- A change of the current task that keeps its pid, and does not wake it. -/
theorem Slots.modifyCurrent (hs : Slots T s n) {f : Task → Task} (hpid : ∀ t, (f t).pid = t.pid)
    (hactive : ∀ t, t.active = false → (f t).active = false) : Slots T (modifyCurrent f s) n where
  count := by rw [modifyCurrent_taskCount, hs.count]
  pid i hi := by
    rw [modifyCurrent_taskCount] at hi
    rw [modifyCurrent_tasks]
    split
    · rw [hpid, hs.pid i hi]
    · exact hs.pid i hi
  inactive i hi hmax := by
    rw [modifyCurrent_taskCount] at hi
    rw [modifyCurrent_tasks]
    split
    · exact hactive _ (hs.inactive i hi hmax)
    · exact hs.inactive i hi hmax
  current c hc := by
    rw [modifyCurrent_currentTask] at hc
    rw [modifyCurrent_taskCount]
    exact hs.current c hc

theorem Slots.exit (hs : Slots T s n) : Slots T (taskExit s) n := by
  rw [taskExit_eq]
  exact hs.modifyCurrent (fun _ => rfl) fun _ _ => rfl

theorem Slots.scheduled (hs : Slots T s n) (sp : ℕ) : Slots T (schedule T s sp).2 n := by
  have hsaved : Slots T (saveStackPointer s sp) n := by
    rw [saveStackPointer_eq]
    exact hs.modifyCurrent (fun _ => rfl) fun _ h => h
  rw [schedule]
  split
  · exact hs
  · rename_i hcount
    dsimp only
    split
    · rename_i t ht
      have hlt : t < s.taskCount := by
        simpa using (findActive_some ht).2 (by simpa using Nat.pos_of_ne_zero hcount)
      refine ⟨hsaved.count, hsaved.pid, hsaved.inactive, fun c hc => ?_⟩
      obtain rfl := Option.some.inj hc
      simpa using hlt
    · exact hsaved

theorem schedRun_foldl (calls : List (SchedCall w)) (s : Sched) :
    Run (SchedStep A T) s calls (calls.foldl (SchedCall.after A T) s) := by
  induction calls generalizing s with
  | nil => exact .refl s
  | cons call calls ih => exact .more rfl (ih _)

/-- The slots over a run. -/
theorem SchedRun.slots {calls : List (SchedCall w)} (h : SchedRun A T calls s) :
    Slots T s (creations calls) := by
  obtain ⟨s₀, hrun⟩ := h
  have hinit : Slots T (schedulerInit T s₀) (creations ([] : List (SchedCall w))) := slots_init s₀
  refine hrun.inv_history (I := fun calls s => Slots T s (creations calls)) ?_ hinit
  rintro ls s call _ hs rfl
  rw [creations, List.countP_append, ← creations]
  cases call with
  | create mem entryPoint => exact hs.create mem entryPoint
  | schedule sp => exact hs.scheduled sp
  | exit => exact hs.exit

/-- One more task is active in `s'` than in `s`, with a pid of its own; the slots of the others,
stacks included, are as they were. -/
def MakesOne (T : TaskTable) (s : Sched) (mem : ℕ → BitVec w) (s' : Sched) (mem' : ℕ → BitVec w) :
    Prop :=
  ∃ i < T.maxTasks, (s.tasks i).active = false ∧ (s'.tasks i).active = true ∧
    (∀ j < T.maxTasks, (s.tasks j).active = true → (s.tasks j).pid ≠ (s'.tasks i).pid) ∧
    ∀ j < T.maxTasks, j ≠ i → s'.tasks j = s.tasks j ∧
      ∀ a, T.kernelStack j ≤ a → a < T.userStackTop j → mem' a = mem a

theorem Slots.makesOne (hs : Slots T s n) (h : n < T.maxTasks) (mem : ℕ → BitVec w)
    (entryPoint : BitVec w) :
    MakesOne T s mem (taskCreateUser A T s mem entryPoint).1
      (taskCreateUser A T s mem entryPoint).2 := by
  have hlt : s.taskCount < T.maxTasks := by
    have hcount := hs.count
    omega
  have htask : (taskCreateUser A T s mem entryPoint).1.tasks s.taskCount =
      ⟨T.kernelStackTop s.taskCount - A.frameBytes, s.taskCount + 1, true⟩ := by
    rw [taskCreateUser_sched hlt]
    exact Function.update_self _ _ _
  refine ⟨s.taskCount, hlt, hs.inactive _ (Nat.le_refl _) hlt, ?_, fun j hj hact => ?_,
    fun j hj hne => ⟨?_, fun a hlo hhi => ?_⟩⟩
  · rw [htask]
  · have hj' : j < s.taskCount := by
      by_contra hge
      rw [hs.inactive j (Nat.not_lt.mp hge) hj] at hact
      cases hact
    rw [htask, hs.pid j hj']
    dsimp only
    omega
  · rw [taskCreateUser_sched hlt]
    exact Function.update_of_ne hne _ _
  · -- the frame is in the kernel stack of the new task
    refine taskCreateUser_other hlt ?_
    have hfit : A.frameBytes ≤ 4096 := A.fits
    simp only [TaskTable.kernelStack, TaskTable.userStackTop, TaskTable.kernelStackTop] at hlo hhi ⊢
    omega

/-- **Creating a task.**  In every run from `scheduler_init`, the first `MAX_TASKS` calls of
`task_create_user` each make one more task active, with a pid of its own and no other slot touched,
and every later one changes nothing. -/
theorem create_fills_slot (A : Arch R w) (T : TaskTable) {calls : List (SchedCall w)}
    (hrun : SchedRun A T calls s) (mem : ℕ → BitVec w) (entryPoint : BitVec w) :
    (creations calls < T.maxTasks → MakesOne T s mem (taskCreateUser A T s mem entryPoint).1
      (taskCreateUser A T s mem entryPoint).2) ∧
    (T.maxTasks ≤ creations calls → taskCreateUser A T s mem entryPoint = (s, mem)) := by
  refine ⟨fun h => hrun.slots.makesOne h mem entryPoint, fun h => taskCreateUser_full ?_⟩
  exact Nat.le_of_eq (hrun.slots.count.trans (Nat.min_eq_right h)).symm

end

/-- A table of ten slots. -/
def tenSlots : TaskTable := ⟨10, 0x300000, rfl⟩

/-- The scheduler of a table of ten slots, at the start. -/
def noTasks : Sched := schedulerInit tenSlots ⟨fun _ => ⟨0, 0, false⟩, 0, none, 0⟩

/-- Three tasks: the first runs and exits, and the second runs. -/
def threeCreated : List (SchedCall 64) :=
  List.replicate 3 (.create (fun _ => 0) 0x8000000000) ++
    [.schedule 0x90000, .exit, .schedule 0x91000]

/-- Ten tasks, of which one runs and exits. -/
def tenCreated : List (SchedCall 64) :=
  List.replicate 10 (.create (fun _ => 0) 0x8000000000) ++ [.schedule 0x90000, .exit]

/-- The state after calls. -/
def afterCalls (calls : List (SchedCall 64)) : Sched :=
  calls.foldl (SchedCall.after x64 tenSlots) noTasks

theorem afterCalls_run (calls : List (SchedCall 64)) :
    SchedRun x64 tenSlots calls (afterCalls calls) :=
  ⟨_, schedRun_foldl calls noTasks⟩

/-- With the first of three tasks gone a fourth is made, in a slot of its own; with one of ten gone
no task is made. -/
theorem create_fills_slot_after_exit :
    ((afterCalls threeCreated).tasks 0).active = false ∧
      MakesOne tenSlots (afterCalls threeCreated) (fun _ => 0)
        (taskCreateUser x64 tenSlots (afterCalls threeCreated) (fun _ => 0) 0x8000000000).1
        (taskCreateUser x64 tenSlots (afterCalls threeCreated) (fun _ => 0) 0x8000000000).2 ∧
      taskCreateUser x64 tenSlots (afterCalls tenCreated) (fun _ => 0) 0x8000000000 =
        (afterCalls tenCreated, fun _ => 0) :=
  ⟨by decide +kernel,
    (create_fills_slot x64 tenSlots (afterCalls_run threeCreated) _ _).1 (by decide),
    (create_fills_slot x64 tenSlots (afterCalls_run tenCreated) _ _).2 (by decide)⟩

/-- With ten tasks created and one of them gone nine are active, and no task can be created. -/
theorem exited_slot_not_reused :
    ¬ ∀ (T : TaskTable) (calls : List (SchedCall 64)) (s : Sched) (mem : ℕ → BitVec 64)
      (entryPoint : BitVec 64), SchedRun x64 T calls s →
      (List.range T.maxTasks).countP (fun i => (s.tasks i).active) < T.maxTasks →
      MakesOne T s mem (taskCreateUser x64 T s mem entryPoint).1
        (taskCreateUser x64 T s mem entryPoint).2 := by
  intro hall
  have hnine : (List.range 10).countP (fun i => ((afterCalls tenCreated).tasks i).active) < 10 := by
    decide +kernel
  have hrun := afterCalls_run tenCreated
  generalize afterCalls tenCreated = s at hnine hrun
  have hten : creations tenCreated = 10 := by decide
  have hcount : s.taskCount = tenSlots.maxTasks := by
    rw [hrun.slots.count, hten]
    rfl
  have hfull : taskCreateUser x64 tenSlots s (fun _ => 0) 0x8000000000 = (s, fun _ => 0) :=
    taskCreateUser_full (Nat.le_of_eq hcount.symm)
  obtain ⟨i, -, hinactive, hactive, -⟩ :=
    hall tenSlots tenCreated s (fun _ => 0) 0x8000000000 hrun hnine
  rw [hfull, hinactive] at hactive
  cases hactive

end ZeptoOS.Core
