import ZeptoOS.Core.Slots
import ZeptoOS.Lib.Cyclic

/-!
# Core — RoundRobin

The order in which `schedule` takes the active tasks.  Its loop is a search through the slots in
cyclic order (`findActive_eq`), so as many calls in a row as there are active tasks take each of
them once, in slot order from the slot after the current one on (`schedule_round_robin`).
-/

namespace ZeptoOS.Core
open Lib

/-- The active slots. -/
def activeSlots (T : TaskTable) (s : Sched) : List ℕ :=
  (List.range T.maxTasks).filter fun i => (s.tasks i).active

/-- The active slots in cyclic order, from the one after the current slot on; before the first
switch, from slot 0. -/
def activeAfter (T : TaskTable) (s : Sched) : List ℕ :=
  turn (fun i => (s.tasks i).active) T.maxTasks (s.currentTask.elim 0 (· + 1))

/-- The slots that calls of `schedule` in a row select, given their stack pointers. -/
def selections (T : TaskTable) : Sched → List ℕ → List (Option ℕ)
  | _, [] => []
  | s, sp :: sps => (schedule T s sp).2.currentTask :: selections T (schedule T s sp).2 sps

section

variable {R : Type} {w : ℕ} {A : Arch R w} {T : TaskTable} {s : Sched} {n : ℕ}

theorem findActive_eq (s : Sched) : ∀ k next,
    findActive s k next = search (fun i => (s.tasks i).active) s.taskCount k next
  | 0, _ => rfl
  | k + 1, next => by
      rw [findActive, search, findActive_eq s k]

/-- The slots from `task_count` on have no turn. -/
theorem Slots.activeAfter_eq (hs : Slots T s n) : activeAfter T s =
    turn (fun i => (s.tasks i).active) s.taskCount (s.currentTask.elim 0 (· + 1)) := by
  have hcount : s.taskCount ≤ T.maxTasks := hs.count ▸ Nat.min_le_right _ _
  refine turn_extend ?_ hcount hs.inactive
  cases hc : s.currentTask with
  | none => exact Nat.zero_le _
  | some c => exact hs.current c hc

/-- **One call** selects the first active slot in turn, which then comes last. -/
theorem Slots.schedule_turn (hs : Slots T s n) {t : ℕ} {rest : List ℕ}
    (h : activeAfter T s = t :: rest) (sp : ℕ) :
    (schedule T s sp).2.currentTask = some t ∧
      activeAfter T (schedule T s sp).2 = rest ++ [t] := by
  rw [hs.activeAfter_eq] at h
  have hactive : (fun i => ((saveStackPointer s sp).tasks i).active) =
      fun i => (s.tasks i).active := funext fun i => saveStackPointer_active s sp i
  have hfind : findActive (saveStackPointer s sp) s.taskCount (s.currentTask.elim 0 (· + 1)) =
      some t := by
    rw [findActive_eq, saveStackPointer_taskCount, hactive, search_eq, h]
    rfl
  have hcount : s.taskCount ≠ 0 := by
    intro hzero
    rw [hzero] at h
    cases h
  have hsched : (schedule T s sp).2 =
      { saveStackPointer s sp with currentTask := some t, tssStack := T.kernelStackTop t } := by
    rw [schedule, if_neg hcount]
    dsimp only
    rw [saveStackPointer_taskCount, saveStackPointer_currentTask, hfind]
  have hslots := hs.scheduled sp
  refine ⟨by rw [hsched], ?_⟩
  rw [hslots.activeAfter_eq, hsched]
  dsimp only
  rw [hactive, saveStackPointer_taskCount]
  exact turn_succ h

/-- Calls in a row select the active slots in turn. -/
theorem Slots.selections_eq {sps : List ℕ} (hs : Slots T s n) {ts rest : List ℕ}
    (h : activeAfter T s = ts ++ rest) (hlen : sps.length = ts.length) :
    selections T s sps = ts.map some := by
  induction sps generalizing s ts rest with
  | nil =>
      obtain rfl := List.length_eq_zero_iff.mp hlen.symm
      rfl
  | cons sp sps ih =>
      cases ts with
      | nil => cases hlen
      | cons t ts =>
          rw [List.cons_append] at h
          obtain ⟨hcurrent, hnext⟩ := hs.schedule_turn h sp
          rw [List.append_assoc] at hnext
          rw [selections, hcurrent, List.map_cons,
            ih (hs.scheduled sp) hnext (Nat.succ.inj hlen)]

/-- **Round robin.**  In every state reached from `scheduler_init`, for any number of slots, as many
calls of `schedule` as there are active tasks select the active slots in cyclic order from the slot
after the current one on: each of them once, and no other. -/
theorem schedule_round_robin (A : Arch R w) (T : TaskTable) {calls : List (SchedCall w)}
    (hrun : SchedRun A T calls s) (sps : List ℕ) (hlen : sps.length = (activeSlots T s).length) :
    selections T s sps = (activeAfter T s).map some ∧ (activeAfter T s).Perm (activeSlots T s) := by
  have hperm : (activeAfter T s).Perm (activeSlots T s) := turn_perm
  exact ⟨hrun.slots.selections_eq (List.append_nil _).symm (hlen.trans hperm.length_eq.symm), hperm⟩

end

/-- Of ten tasks the first has run and exited: the next nine calls select the others in order. -/
theorem schedule_round_robin_exited :
    selections tenSlots (afterCalls tenCreated) (List.replicate 9 0x90000) =
      (List.range' 1 9).map some := by
  have hnine : (activeSlots tenSlots (afterCalls tenCreated)).length = 9 := by decide +kernel
  have hafter : activeAfter tenSlots (afterCalls tenCreated) = List.range' 1 9 := by
    decide +kernel
  have hturn := (schedule_round_robin x64 tenSlots (afterCalls_run tenCreated)
    (List.replicate 9 0x90000) ((List.length_replicate ..).trans hnine.symm)).1
  rwa [hafter] at hturn

end ZeptoOS.Core
