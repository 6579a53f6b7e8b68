import Mathlib.Data.List.Basic
import Mathlib.Logic.Function.Basic

/-!
# Lib — Pic

The 8259A interrupt controller, alone and with a second one on line 2: its two ports, the requests
of its lines, and the acknowledgement of one.  Lines are edge triggered, and a request stays until
it is acknowledged; priorities are fixed, line 0 first.  Rotation, the special mask mode and polling
are left out.

`pending_eq_some` says which request comes next, `pending_of_idle` that some request does when
nothing is in service, and `endOfInterrupt_idle` that one end of interrupt undoes one
acknowledgement.
-/

namespace ZeptoOS.Lib

/-- What the data port is for. -/
inductive PicStage where
  | ready | icw2 | icw3 | icw4
deriving DecidableEq

/-- An 8259A: the requests, the lines in service and the masked ones. -/
structure Pic where
  irr : ℕ → Bool
  isr : ℕ → Bool
  mask : ℕ → Bool
  base : ℕ
  cascade : BitVec 8
  autoEoi : Bool
  single : Bool
  needsIcw4 : Bool
  stage : PicStage

namespace Pic

/-- The lines in order of their priority. -/
def lines : List ℕ := List.range 8

/-- The end of the interrupt of the highest priority. -/
def endOfInterrupt (p : Pic) : Pic :=
  match lines.find? p.isr with
  | some n => { p with isr := Function.update p.isr n false }
  | none => p

/-- A byte to the command port. -/
def command (p : Pic) (v : BitVec 8) : Pic :=
  if v.getLsbD 4 then
    -- the first byte of an initialization
    { p with
      irr := fun _ => false
      isr := fun _ => false
      mask := fun _ => false
      autoEoi := false
      single := v.getLsbD 1
      needsIcw4 := v.getLsbD 0
      stage := .icw2 }
  else if v.getLsbD 3 then p
  else
    match v.toNat / 32 with
    | 1 => p.endOfInterrupt
    | 3 => { p with isr := Function.update p.isr (v.toNat % 8) false }
    | _ => p

/-- Where an initialization goes on after its third byte. -/
def afterIcw3 (p : Pic) : PicStage := if p.needsIcw4 then .icw4 else .ready

/-- A byte to the data port. -/
def data (p : Pic) (v : BitVec 8) : Pic :=
  match p.stage with
  | .ready => { p with mask := v.getLsbD }
  | .icw2 =>
      { p with base := v.toNat / 8 * 8, stage := if p.single then p.afterIcw3 else .icw3 }
  | .icw3 => { p with cascade := v, stage := p.afterIcw3 }
  | .icw4 => { p with autoEoi := v.getLsbD 1, stage := .ready }

/-- A request on line `n`. -/
def raise (p : Pic) (n : ℕ) : Pic := { p with irr := Function.update p.irr n true }

/-- The request to be served next: nothing of its priority or a higher one is in service. -/
def pending (p : Pic) : Option ℕ :=
  match lines.find? fun n => p.irr n && !p.mask n with
  | none => none
  | some n => if (List.range (n + 1)).any p.isr then none else some n

/-- The acknowledgement of line `n`. -/
def acknowledge (p : Pic) (n : ℕ) : Pic :=
  { p with
    irr := Function.update p.irr n false
    isr := if p.autoEoi then p.isr else Function.update p.isr n true }

/-- Nothing is in service. -/
def Idle (p : Pic) : Prop := ∀ n < 8, p.isr n = false

variable {p : Pic} {n : ℕ}

theorem pending_eq_some (h : p.pending = some n) :
    n < 8 ∧ p.irr n = true ∧ p.mask n = false := by
  rw [pending] at h
  split at h
  · cases h
  · rename_i m hm
    split at h
    · cases h
    · obtain rfl := Option.some.inj h
      have hmem := List.mem_range.mp (List.mem_of_find?_eq_some hm)
      have hreq := List.find?_some hm
      rw [Bool.and_eq_true, Bool.not_eq_true'] at hreq
      exact ⟨hmem, hreq⟩

/-- The first of the requests that are not masked. -/
theorem pending_first (h : p.pending = some n) {m : ℕ} (hm : m < n) :
    p.irr m = false ∨ p.mask m = true := by
  rw [pending] at h
  split at h
  · cases h
  · rename_i k hk
    split at h
    · cases h
    · obtain rfl := Option.some.inj h
      obtain ⟨-, i, hi, hget, hbefore⟩ := List.find?_eq_some_iff_getElem.mp hk
      have hik : i = k := by simpa [lines] using hget
      subst hik
      simpa [lines, Bool.and_eq_false_iff] using hbefore m hm

/-- With nothing in service, a request that is not masked is served. -/
theorem pending_of_idle (hidle : p.Idle) (hn : n < 8) (hreq : p.irr n = true)
    (hmask : p.mask n = false) : ∃ m, p.pending = some m := by
  have hsome : (lines.find? fun n => p.irr n && !p.mask n).isSome := by
    rw [List.find?_isSome]
    exact ⟨n, List.mem_range.mpr hn, by simp [hreq, hmask]⟩
  obtain ⟨m, hm⟩ := Option.isSome_iff_exists.mp hsome
  refine ⟨m, ?_⟩
  rw [pending, hm]
  refine if_neg ?_
  have hlt := List.mem_range.mp (List.mem_of_find?_eq_some hm)
  simp only [List.any_eq_true, List.mem_range, not_exists, not_and, Bool.not_eq_true]
  exact fun k hk => hidle k (by omega)

/-- An end of interrupt with nothing in service. -/
theorem endOfInterrupt_of_idle (hidle : p.Idle) : p.endOfInterrupt = p := by
  have hnone : lines.find? p.isr = none := by
    refine List.find?_eq_none.mpr fun n hn => ?_
    rw [hidle n (List.mem_range.mp hn)]
    exact Bool.false_ne_true
  rw [endOfInterrupt, hnone]

/-- One line in service, `n`. -/
def Serves (p : Pic) (n : ℕ) : Prop := ∀ m < 8, p.isr m = decide (m = n)

theorem Idle.acknowledge (hidle : p.Idle) (hauto : p.autoEoi = false) (n : ℕ) :
    (p.acknowledge n).Serves n := by
  intro m hm
  rw [Pic.acknowledge, hauto]
  simp only [Bool.false_eq_true, if_false, Function.update_apply]
  split
  · rename_i e
    rw [decide_eq_true e]
  · rename_i e
    rw [hidle m hm, decide_eq_false e]

/-- **One end of interrupt for one acknowledgement.** -/
theorem Serves.endOfInterrupt (h : p.Serves n) (hn : n < 8) : p.endOfInterrupt.Idle := by
  have hsome : (lines.find? p.isr).isSome := by
    rw [List.find?_isSome]
    exact ⟨n, List.mem_range.mpr hn, by rw [h n hn]; exact decide_eq_true rfl⟩
  obtain ⟨k, hk⟩ := Option.isSome_iff_exists.mp hsome
  have hlt := List.mem_range.mp (List.mem_of_find?_eq_some hk)
  have hkn : k = n := by
    have hserved := List.find?_some hk
    rw [h k hlt] at hserved
    exact of_decide_eq_true hserved
  subst hkn
  intro m hm
  rw [Pic.endOfInterrupt, hk]
  simp only [Function.update_apply]
  split
  · rfl
  · rename_i e
    rw [h m hm, decide_eq_false e]

end Pic

/-! ### Two of them -/

/-- A master, and a slave on its line 2. -/
structure PicPair where
  master : Pic
  slave : Pic

namespace PicPair

/-- A byte to one of the ports. -/
def outb (c : PicPair) (port : ℕ) (v : BitVec 8) : PicPair :=
  if port = 0x20 then { c with master := c.master.command v }
  else if port = 0x21 then { c with master := c.master.data v }
  else if port = 0xA0 then { c with slave := c.slave.command v }
  else if port = 0xA1 then { c with slave := c.slave.data v }
  else c

/-- A request of device `n` of 16. -/
def raise (c : PicPair) (n : ℕ) : PicPair :=
  if n < 8 then { c with master := c.master.raise n }
  else { c with slave := c.slave.raise (n - 8) }

/-- The master, with what the slave requests on its line. -/
def linked (c : PicPair) : Pic :=
  { c.master with irr := Function.update c.master.irr 2 c.slave.pending.isSome }

/-- The acknowledgement of the processor: the vector, if there is a request. -/
def acknowledge (c : PicPair) : Option (ℕ × PicPair) :=
  match c.linked.pending with
  | none => none
  | some n =>
      match if n = 2 then c.slave.pending else none with
      | some m => some (c.slave.base + m, ⟨c.master.acknowledge n, c.slave.acknowledge m⟩)
      | none => some (c.master.base + n, { c with master := c.master.acknowledge n })

end PicPair

end ZeptoOS.Lib
