import ZeptoOS.Core.Irq

/-!
# Core — Scheduler

`kernel/core/scheduler.c`: the table of tasks, `task_create_user`, `task_exit` and `schedule`.
`set_kernel_stack` writes the ring-0 stack of the TSS (`kernel/x64/gdt.c`, `kernel/i386/gdt.c`),
which is `tssStack` here.

`findActive_some` and `findActive_none` say what the search finds; `schedule_active` and
`schedule_idle` what `schedule` returns in either case.
-/

namespace ZeptoOS.Core
open Lib

/-- `task_t`, without its stacks, which are memory. -/
structure Task where
  stackPointer : ℕ
  pid : ℕ
  active : Bool

/-- The static state of the scheduler, and the ring-0 stack of the TSS; `currentTask` is `none` for
the source's `-1`. -/
structure Sched where
  tasks : ℕ → Task
  taskCount : ℕ
  currentTask : Option ℕ
  tssStack : ℕ

/-- The array `tasks`: its length `MAX_TASKS`, and its address. -/
structure TaskTable where
  maxTasks : ℕ
  base : ℕ
  aligned : base % 16 = 0

namespace TaskTable

variable (T : TaskTable)

/-- `tasks[i].kernel_stack`; on either target it is 16 bytes into the 8224 bytes of a `task_t`. -/
def kernelStack (i : ℕ) : ℕ := T.base + 8224 * i + 16

/-- `tasks[i].kernel_stack + sizeof(tasks[i].kernel_stack)` -/
def kernelStackTop (i : ℕ) : ℕ := T.kernelStack i + 4096

/-- `tasks[i].user_stack + sizeof(tasks[i].user_stack)` -/
def userStackTop (i : ℕ) : ℕ := T.base + 8224 * i + 4112 + 4096

end TaskTable

/-- `scheduler_init` -/
def schedulerInit (T : TaskTable) (s : Sched) : Sched :=
  { s with
    taskCount := 0
    currentTask := none
    tasks := fun i => if i < T.maxTasks then { s.tasks i with active := false } else s.tasks i }

/-- `task_create_user` -/
def taskCreateUser {R : Type} {w : ℕ} (A : Arch R w) (T : TaskTable) (s : Sched)
    (mem : ℕ → BitVec w) (entryPoint : BitVec w) : Sched × (ℕ → BitVec w) :=
  if s.taskCount ≥ T.maxTasks then (s, mem)
  else
    let i := s.taskCount
    let kstack := Stack.pushAll A.wordBytes ⟨mem, T.kernelStackTop i⟩
      [0x23, BitVec.ofNat w (T.userStackTop i), 0x202, 0x1B, entryPoint]
    let kstack := Stack.pushAll A.wordBytes kstack (List.replicate A.zeros 0)
    ({ s with tasks := Function.update s.tasks i ⟨kstack.sp, i + 1, true⟩, taskCount := i + 1 },
      kstack.mem)

/-- `task_exit`, up to its `int $32` -/
def taskExit (s : Sched) : Sched :=
  match s.currentTask with
  | none => s
  | some c => { s with tasks := Function.update s.tasks c { s.tasks c with active := false } }

/-- `tasks[current_task].stack_pointer = stack_pointer`, if there is a current task -/
def saveStackPointer (s : Sched) (sp : ℕ) : Sched :=
  match s.currentTask with
  | none => s
  | some c => { s with tasks := Function.update s.tasks c { s.tasks c with stackPointer := sp } }

/-- The loop of `schedule` with `n` turns left; `next` is `next_task + 1`. -/
def findActive (s : Sched) : ℕ → ℕ → Option ℕ
  | 0, _ => none
  | n + 1, next =>
      let nextTask := next % s.taskCount
      if (s.tasks nextTask).active then some nextTask else findActive s n (nextTask + 1)

/-- `schedule`: the stack pointer to go on with. -/
def schedule (T : TaskTable) (s : Sched) (sp : ℕ) : ℕ × Sched :=
  if s.taskCount = 0 then (sp, s)
  else
    let s := saveStackPointer s sp
    match findActive s s.taskCount (s.currentTask.elim 0 (· + 1)) with
    | some t => ((s.tasks t).stackPointer,
        { s with currentTask := some t, tssStack := T.kernelStackTop t })
    | none => (sp, s)

/-! ### The search -/

theorem findActive_some {s : Sched} {t : ℕ} :
    ∀ {n next : ℕ}, findActive s n next = some t →
      (s.tasks t).active = true ∧ (0 < s.taskCount → t < s.taskCount)
  | n + 1, next, h => by
      rw [findActive] at h
      split at h
      · rename_i hact
        cases h
        exact ⟨hact, Nat.mod_lt _⟩
      · exact findActive_some h

/-- A search that fails has looked at `n` slots in turn. -/
theorem findActive_none {s : Sched} :
    ∀ {n next : ℕ}, findActive s n next = none →
      ∀ k < n, (s.tasks ((next + k) % s.taskCount)).active = false
  | n + 1, next, h, k, hk => by
      rw [findActive] at h
      split at h
      · cases h
      · rename_i hact
        cases k with
        | zero => simpa using hact
        | succ k =>
            have hnext := findActive_none h k (by omega)
            rwa [Nat.add_assoc, Nat.add_comm 1 k, Nat.mod_add_mod] at hnext

/-- The search finds a task if there is one. -/
theorem findActive_of_active {s : Sched} {i next : ℕ} (hi : i < s.taskCount)
    (hact : (s.tasks i).active = true) : ∃ t, findActive s s.taskCount next = some t := by
  cases h : findActive s s.taskCount next with
  | some t => exact ⟨t, rfl⟩
  | none =>
      -- the slots looked at are all of them
      have hk := findActive_none h ((i + (s.taskCount - next % s.taskCount)) % s.taskCount)
        (Nat.mod_lt _ (by omega))
      have hmod : (next + (i + (s.taskCount - next % s.taskCount)) % s.taskCount) %
          s.taskCount = i := by
        rw [Nat.add_mod_mod]
        have hdiv := Nat.div_add_mod next s.taskCount
        have hlt := Nat.mod_lt next (show s.taskCount > 0 by omega)
        have hsum : next + (i + (s.taskCount - next % s.taskCount)) =
            i + s.taskCount * (next / s.taskCount + 1) := by
          rw [Nat.mul_succ]
          omega
        rw [hsum, Nat.add_mul_mod_self_left, Nat.mod_eq_of_lt hi]
      rw [hmod, hact] at hk
      cases hk

/-! ### What exiting and saving change -/

/-- A change of the current task, if there is one. -/
def modifyCurrent (f : Task → Task) (s : Sched) : Sched :=
  match s.currentTask with
  | none => s
  | some c => { s with tasks := Function.update s.tasks c (f (s.tasks c)) }

section Modify

variable (f : Task → Task) (s : Sched) (sp : ℕ)

theorem modifyCurrent_taskCount : (modifyCurrent f s).taskCount = s.taskCount := by
  rw [modifyCurrent]
  split <;> rfl

theorem modifyCurrent_currentTask : (modifyCurrent f s).currentTask = s.currentTask := by
  rw [modifyCurrent]
  split <;> rfl

theorem modifyCurrent_tasks (i : ℕ) : (modifyCurrent f s).tasks i =
    if s.currentTask = some i then f (s.tasks i) else s.tasks i := by
  rw [modifyCurrent]
  split
  · rename_i h
    rw [h, if_neg (by simp)]
  · rename_i c h
    dsimp only
    by_cases e : i = c
    · subst e
      rw [Function.update_self, if_pos h]
    · rw [Function.update_of_ne e]
      exact (if_neg fun h' => e (Option.some.inj (h'.symm.trans h))).symm

theorem taskExit_eq : taskExit s = modifyCurrent (fun t => { t with active := false }) s := rfl

theorem saveStackPointer_eq :
    saveStackPointer s sp = modifyCurrent (fun t => { t with stackPointer := sp }) s := rfl

@[simp] theorem taskExit_taskCount : (taskExit s).taskCount = s.taskCount := by
  rw [taskExit_eq, modifyCurrent_taskCount]

@[simp] theorem taskExit_currentTask : (taskExit s).currentTask = s.currentTask := by
  rw [taskExit_eq, modifyCurrent_currentTask]

@[simp] theorem taskExit_stackPointer (i : ℕ) :
    ((taskExit s).tasks i).stackPointer = (s.tasks i).stackPointer := by
  rw [taskExit_eq, modifyCurrent_tasks]
  split <;> rfl

theorem taskExit_active (i : ℕ) : ((taskExit s).tasks i).active =
    if s.currentTask = some i then false else (s.tasks i).active := by
  rw [taskExit_eq, modifyCurrent_tasks]
  split <;> rfl

@[simp] theorem saveStackPointer_taskCount : (saveStackPointer s sp).taskCount = s.taskCount := by
  rw [saveStackPointer_eq, modifyCurrent_taskCount]

@[simp] theorem saveStackPointer_currentTask :
    (saveStackPointer s sp).currentTask = s.currentTask := by
  rw [saveStackPointer_eq, modifyCurrent_currentTask]

@[simp] theorem saveStackPointer_active (i : ℕ) :
    ((saveStackPointer s sp).tasks i).active = (s.tasks i).active := by
  rw [saveStackPointer_eq, modifyCurrent_tasks]
  split <;> rfl

theorem saveStackPointer_stackPointer (i : ℕ) :
    ((saveStackPointer s sp).tasks i).stackPointer =
      if s.currentTask = some i then sp else (s.tasks i).stackPointer := by
  rw [saveStackPointer_eq, modifyCurrent_tasks]
  split <;> rfl

end Modify

/-! ### What creation changes -/

variable {T : TaskTable} {s : Sched}

section Create

variable {R : Type} {w : ℕ} {A : Arch R w} {mem : ℕ → BitVec w} {entryPoint : BitVec w}

theorem taskCreateUser_full (h : T.maxTasks ≤ s.taskCount) :
    taskCreateUser A T s mem entryPoint = (s, mem) :=
  if_pos h

/-- The words a task starts with, as interrupts would have pushed them. -/
def initialFrame (A : Arch R w) (T : TaskTable) (i : ℕ) (entryPoint : BitVec w) :
    List (BitVec w) :=
  [0x23, BitVec.ofNat w (T.userStackTop i), 0x202, 0x1B, entryPoint] ++ A.pushes.map fun _ => 0

theorem length_initialFrame (i : ℕ) :
    A.wordBytes * (initialFrame A T i entryPoint).length = A.frameBytes := by
  rw [initialFrame, List.length_append, List.length_map, ← A.zeros_eq]
  rfl

theorem taskCreateUser_eq (h : s.taskCount < T.maxTasks) :
    taskCreateUser A T s mem entryPoint =
      let kstack := Stack.pushAll A.wordBytes ⟨mem, T.kernelStackTop s.taskCount⟩
        (initialFrame A T s.taskCount entryPoint)
      ({ s with
          tasks := Function.update s.tasks s.taskCount ⟨kstack.sp, s.taskCount + 1, true⟩
          taskCount := s.taskCount + 1 }, kstack.mem) := by
  rw [taskCreateUser, if_neg (Nat.not_le.mpr h), A.zeros_eq, initialFrame, List.map_const',
    Stack.pushAll_append]

theorem taskCreateUser_sched (h : s.taskCount < T.maxTasks) :
    (taskCreateUser A T s mem entryPoint).1 =
      { s with
        tasks := Function.update s.tasks s.taskCount
          ⟨T.kernelStackTop s.taskCount - A.frameBytes, s.taskCount + 1, true⟩
        taskCount := s.taskCount + 1 } := by
  rw [taskCreateUser_eq h]
  dsimp only
  rw [Stack.pushAll_sp, length_initialFrame]

theorem taskCreateUser_taskCount (h : s.taskCount < T.maxTasks) :
    (taskCreateUser A T s mem entryPoint).1.taskCount = s.taskCount + 1 := by
  rw [taskCreateUser_sched h]

theorem taskCreateUser_currentTask (h : s.taskCount < T.maxTasks) :
    (taskCreateUser A T s mem entryPoint).1.currentTask = s.currentTask := by
  rw [taskCreateUser_sched h]

/-- What holds of the new task and of the others holds of all tasks after a creation. -/
theorem forall_created {P : ℕ → Task → Prop} (h : s.taskCount < T.maxTasks)
    (hnew : P s.taskCount ⟨T.kernelStackTop s.taskCount - A.frameBytes, s.taskCount + 1, true⟩)
    (hold : ∀ i < s.taskCount, P i (s.tasks i)) :
    ∀ i < s.taskCount + 1, P i ((taskCreateUser A T s mem entryPoint).1.tasks i) := by
  intro i hi
  rw [taskCreateUser_sched h]
  dsimp only
  rcases Nat.lt_succ_iff_lt_or_eq.mp hi with hlt | rfl
  · rw [Function.update_of_ne (Nat.ne_of_lt hlt)]
    exact hold i hlt
  · rwa [Function.update_self]

theorem frameBytes_le_kernelStackTop (i : ℕ) : A.frameBytes ≤ T.kernelStackTop i :=
  Nat.le_trans A.fits (Nat.le_add_left _ _)

/-- Creation changes only the frame it builds. -/
theorem taskCreateUser_other (h : s.taskCount < T.maxTasks) {a : ℕ}
    (ha : a < T.kernelStackTop s.taskCount - A.frameBytes ∨ T.kernelStackTop s.taskCount ≤ a) :
    (taskCreateUser A T s mem entryPoint).2 a = mem a := by
  rw [taskCreateUser_eq h]
  exact Stack.pushAll_other (by rwa [length_initialFrame]) A.wordBytes_pos
    (by rw [length_initialFrame]; exact frameBytes_le_kernelStackTop _)

/-- A return to a task just created enters it at its entry point. -/
theorem leave_created [DecidableEq R] (h : s.taskCount < T.maxTasks) (regs : R → BitVec w) :
    leave A (taskCreateUser A T s mem entryPoint).2 (T.kernelStackTop s.taskCount - A.frameBytes)
      regs = ⟨fun _ => 0, entryPoint, 0x202, BitVec.ofNat w (T.userStackTop s.taskCount), 0x1B,
        0x23⟩ := by
  let kstack := Stack.pushAll A.wordBytes ⟨mem, T.kernelStackTop s.taskCount⟩
    (initialFrame A T s.taskCount entryPoint)
  have hsp : kstack.sp = T.kernelStackTop s.taskCount - A.frameBytes := by
    rw [Stack.pushAll_sp, length_initialFrame]
  rw [taskCreateUser_eq h, ← hsp]
  exact leave_pushAll (fun _ => 0) (frameBytes_le_kernelStackTop _) regs

end Create

/-! ### What `schedule` returns -/

theorem schedule_empty {sp : ℕ} (h : s.taskCount = 0) : schedule T s sp = (sp, s) :=
  if_pos h

/-- Where a task is active, `schedule` goes on with an active task. -/
theorem schedule_active {i : ℕ} (hi : i < s.taskCount) (hact : (s.tasks i).active = true)
    (sp : ℕ) : ∃ t < s.taskCount, (s.tasks t).active = true ∧
      schedule T s sp = (((saveStackPointer s sp).tasks t).stackPointer,
        { saveStackPointer s sp with currentTask := some t, tssStack := T.kernelStackTop t }) := by
  have hfind : ∃ t, findActive (saveStackPointer s sp) (saveStackPointer s sp).taskCount
      (s.currentTask.elim 0 (· + 1)) = some t :=
    findActive_of_active (i := i) (by simpa using hi) (by simpa using hact)
  obtain ⟨t, ht⟩ := hfind
  obtain ⟨htact, htlt⟩ := findActive_some ht
  simp only [saveStackPointer_taskCount, saveStackPointer_active] at ht htact htlt
  refine ⟨t, htlt (by omega), htact, ?_⟩
  rw [schedule, if_neg (by omega)]
  simp only [saveStackPointer_taskCount, saveStackPointer_currentTask, ht]

/-- Where no task is active, `schedule` goes on with the caller. -/
theorem schedule_idle (hcount : s.taskCount ≠ 0)
    (hidle : ∀ i < s.taskCount, (s.tasks i).active = false) (sp : ℕ) :
    schedule T s sp = (sp, saveStackPointer s sp) := by
  rw [schedule, if_neg hcount]
  dsimp only
  split
  · rename_i t ht
    obtain ⟨hact, hlt⟩ := findActive_some ht
    simp only [saveStackPointer_taskCount, saveStackPointer_active] at hact hlt
    rw [hidle t (hlt (by omega))] at hact
    cases hact
  · rfl

end ZeptoOS.Core
