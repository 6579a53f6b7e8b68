import Mathlib.Data.BitVec
import Mathlib.Logic.Function.Iterate

/-!
# Lib — Uart

The transmitter of a 16550 UART behind its registers.  A character goes from the holding register,
or the FIFO, to the shift register, and from there out on the line.  How far the transmitter gets
between two accesses is its own (`pace`).  The receiver and the interrupts are left out.

`output` is what went out and what is still to go: time leaves it (`tick_output`), and a character
written while the holding register is empty comes to its end (`transmit_output`).  `flush` is the
transmitter when all has gone out (`flush_line`).
-/

namespace ZeptoOS.Lib

/-- A character on the line, with the divisor and the line control it went out under. -/
structure SerialFrame where
  data : BitVec 8
  divisor : BitVec 16
  control : BitVec 8

structure Uart where
  divisorLow : BitVec 8
  divisorHigh : BitVec 8
  interruptEnable : BitVec 8
  lineControl : BitVec 8
  modemControl : BitVec 8
  fifoEnabled : Bool
  /-- The holding register, or the FIFO from its head on. -/
  holding : List (BitVec 8)
  shift : Option (BitVec 8)
  line : List SerialFrame
  pace : ℕ → ℕ

namespace Uart

/-- The divisor latch is at the first two registers. -/
def latch (u : Uart) : Bool := u.lineControl.getLsbD 7

/-- What is sent goes back to the receiver, and not out. -/
def loopback (u : Uart) : Bool := u.modemControl.getLsbD 4

def frame (u : Uart) (c : BitVec 8) : SerialFrame :=
  ⟨c, u.divisorHigh ++ u.divisorLow, u.lineControl⟩

/-- The time of one character: what is in the shift register goes out, and the next is taken. -/
def tick (u : Uart) : Uart :=
  { u with
    line := u.line ++ if u.loopback then [] else u.shift.toList.map u.frame
    shift := u.holding.head?
    holding := u.holding.tail }

/-- The time until the next access. -/
def wait (u : Uart) : Uart := { tick^[u.pace 0] u with pace := fun n => u.pace (n + 1) }

/-- A character to the holding register; a full FIFO does not take it. -/
def transmit (u : Uart) (c : BitVec 8) : Uart :=
  { u with
    holding :=
      if u.fifoEnabled then if u.holding.length < 16 then u.holding ++ [c] else u.holding
      else [c] }

/-- The FIFO control. -/
def fifoControl (u : Uart) (value : BitVec 8) : Uart :=
  { u with
    fifoEnabled := value.getLsbD 0
    holding :=
      if value.getLsbD 0 ≠ u.fifoEnabled ∨ value.getLsbD 0 ∧ value.getLsbD 2 then []
      else u.holding }

/-- A store to a register. -/
def store (u : Uart) (register : ℕ) (value : BitVec 8) : Uart :=
  match register with
  | 0 => if u.latch then { u with divisorLow := value } else u.transmit value
  | 1 =>
      if u.latch then { u with divisorHigh := value } else { u with interruptEnable := value }
  | 2 => u.fifoControl value
  | 3 => { u with lineControl := value }
  | 4 => { u with modemControl := value }
  | _ => u

/-- What `outb` does. -/
def outb (u : Uart) (register : ℕ) (value : BitVec 8) : Uart := u.wait.store register value

/-- THRE while the holding register is empty, and TEMT while the shift register is too. -/
def lineStatus (u : Uart) : BitVec 8 :=
  (if u.holding = [] then 0x20 else 0) |||
    (if u.holding = [] ∧ u.shift = none then 0x40 else 0)

/-- `inb` of the line status. -/
def inbStatus (u : Uart) : BitVec 8 × Uart := (u.wait.lineStatus, u.wait)

/-- The transmitter never stops for good. -/
def Runs (u : Uart) : Prop := ∀ n, ∃ m ≥ n, 0 < u.pace m

/-- What went out on the line, and what is still to go. -/
def output (u : Uart) : List (BitVec 8) :=
  u.line.map SerialFrame.data ++ u.shift.toList ++ u.holding

/-- The transmitter when all has gone out. -/
def flush (u : Uart) : Uart := tick^[u.holding.length + 1] u

/-! ### Time -/

variable {u : Uart}

/-- The settings of the transmitter are the same. -/
structure SameSettings (u u' : Uart) : Prop where
  divisorLow : u'.divisorLow = u.divisorLow
  divisorHigh : u'.divisorHigh = u.divisorHigh
  lineControl : u'.lineControl = u.lineControl
  modemControl : u'.modemControl = u.modemControl

theorem SameSettings.rfl : SameSettings u u := ⟨Eq.refl _, Eq.refl _, Eq.refl _, Eq.refl _⟩

theorem tick_settings (n : ℕ) : SameSettings u (tick^[n] u) := by
  induction n with
  | zero => exact .rfl
  | succ n ih =>
      rw [Function.iterate_succ_apply']
      exact ⟨ih.divisorLow, ih.divisorHigh, ih.lineControl, ih.modemControl⟩

theorem tick_holding (n : ℕ) : (tick^[n] u).holding = u.holding.drop n := by
  induction n with
  | zero => rfl
  | succ n ih => rw [Function.iterate_succ_apply', tick, ih, List.tail_drop]

/-- **Time leaves the output.** -/
theorem tick_output (h : u.loopback = false) (n : ℕ) : (tick^[n] u).output = u.output := by
  have hone : ∀ u : Uart, u.loopback = false → u.tick.output = u.output := by
    intro u h
    have hdata : (u.shift.toList.map u.frame).map SerialFrame.data = u.shift.toList := by
      cases u.shift <;> rfl
    rw [output, output, tick, h]
    dsimp only
    rw [if_neg Bool.false_ne_true, List.map_append, hdata, List.append_assoc]
    cases u.holding <;> rfl
  induction n with
  | zero => rfl
  | succ n ih =>
      have hback : (tick^[n] u).loopback = false := by
        rw [loopback, (tick_settings n).modemControl]
        exact h
      rw [Function.iterate_succ_apply', hone _ hback, ih]

/-- All that goes out in time goes out under the settings. -/
theorem tick_line (h : u.loopback = false) (n : ℕ) : ∃ cs : List (BitVec 8),
    (tick^[n] u).line = u.line ++ cs.map u.frame := by
  induction n with
  | zero => exact ⟨[], (List.append_nil _).symm⟩
  | succ n ih =>
      obtain ⟨cs, hcs⟩ := ih
      have hset := tick_settings (u := u) n
      have hframe : (tick^[n] u).frame = u.frame := funext fun c => by
        rw [frame, frame, hset.divisorHigh, hset.divisorLow, hset.lineControl]
      refine ⟨cs ++ (tick^[n] u).shift.toList, ?_⟩
      rw [Function.iterate_succ_apply', tick]
      dsimp only
      rw [hcs, loopback, hset.modemControl, ← loopback, h, hframe, List.map_append,
        List.append_assoc]
      rfl

/-- **All goes out**, in order, under the settings. -/
theorem flush_line (h : u.loopback = false) :
    u.flush.line = u.line ++ (u.shift.toList ++ u.holding).map u.frame := by
  obtain ⟨cs, hcs⟩ := tick_line h (u.holding.length + 1)
  have houtput := tick_output h (u.holding.length + 1)
  have hholding : (tick^[u.holding.length + 1] u).holding = [] := by
    rw [tick_holding]
    exact List.drop_eq_nil_of_le (Nat.le_succ _)
  have hshift : (tick^[u.holding.length + 1] u).shift = none := by
    rw [Function.iterate_succ_apply', tick]
    dsimp only
    rw [tick_holding, List.drop_length]
    rfl
  have hmap : (cs.map u.frame).map SerialFrame.data = cs := by
    rw [List.map_map]
    exact List.map_id cs
  rw [output, hholding, hshift, hcs, List.map_append, hmap, output] at houtput
  simp only [Option.toList_none, List.append_nil, List.append_assoc] at houtput
  rw [flush, hcs, List.append_cancel_left houtput]

/-! ### Accesses -/

theorem wait_settings : SameSettings u u.wait :=
  have h := tick_settings (u := u) (u.pace 0)
  ⟨h.divisorLow, h.divisorHigh, h.lineControl, h.modemControl⟩

@[simp] theorem wait_divisorLow : u.wait.divisorLow = u.divisorLow := wait_settings.divisorLow

@[simp] theorem wait_divisorHigh : u.wait.divisorHigh = u.divisorHigh := wait_settings.divisorHigh

@[simp] theorem wait_lineControl : u.wait.lineControl = u.lineControl := wait_settings.lineControl

@[simp] theorem wait_modemControl : u.wait.modemControl = u.modemControl :=
  wait_settings.modemControl

theorem wait_output (h : u.loopback = false) : u.wait.output = u.output :=
  tick_output h (u.pace 0)

theorem wait_line (h : u.loopback = false) : ∃ cs : List (BitVec 8),
    u.wait.line = u.line ++ cs.map u.frame := tick_line h (u.pace 0)

theorem wait_holding : u.wait.holding = u.holding.drop (u.pace 0) := tick_holding _

theorem wait_runs (h : u.Runs) : u.wait.Runs := fun n => by
  obtain ⟨m, hm, hpos⟩ := h (n + 1)
  obtain ⟨m, rfl⟩ := Nat.exists_eq_add_of_lt hm
  exact ⟨n + m, Nat.le_add_right n m, by simpa only [wait, Nat.add_right_comm n 1 m] using hpos⟩

theorem store_pace (u : Uart) (register : ℕ) (value : BitVec 8) :
    (u.store register value).pace = u.pace := by
  fun_cases store <;> rfl

theorem outb_runs (h : u.Runs) (register : ℕ) (value : BitVec 8) :
    (u.outb register value).Runs := by
  rw [Runs, outb, store_pace]
  exact wait_runs h

/-- The holding register is empty when the status says so. -/
theorem lineStatus_empty : u.lineStatus &&& 0x20 = 0 ↔ u.holding ≠ [] := by
  rw [lineStatus]
  by_cases h : u.holding = []
  · rw [if_pos h]
    refine iff_of_false ?_ (not_not.mpr h)
    split <;> decide
  · rw [if_neg h, if_neg fun hboth => h hboth.1]
    exact iff_of_true (by decide) h

/-- **A character written to an empty holding register** comes to the end of the output. -/
theorem transmit_output (h : u.holding = []) (c : BitVec 8) :
    (u.transmit c).output = u.output ++ [c] := by
  rw [output, output, transmit, h]
  dsimp only
  split <;> simp

/-! ### What is sent under fixed settings -/

/-- Since `u₀` the settings are the same, what went out went out under them, and `sent` was written
without a loss. -/
structure Sent (u₀ u : Uart) (sent : List (BitVec 8)) : Prop where
  settings : SameSettings u₀ u
  runs : u.Runs
  line : ∃ cs : List (BitVec 8), u.line = u₀.line ++ cs.map u₀.frame
  output : u.output = u₀.output ++ sent

namespace Sent

variable {u₀ : Uart} {sent : List (BitVec 8)}

theorem refl (h : u.Runs) : Sent u u [] :=
  ⟨.rfl, h, ⟨[], (List.append_nil _).symm⟩, (List.append_nil _).symm⟩

theorem loopback (h : Sent u₀ u sent) : u.loopback = u₀.loopback := by
  rw [Uart.loopback, h.settings.modemControl, Uart.loopback]

theorem latch (h : Sent u₀ u sent) : u.latch = u₀.latch := by
  rw [Uart.latch, h.settings.lineControl, Uart.latch]

theorem frame (h : Sent u₀ u sent) : u.frame = u₀.frame := funext fun c => by
  rw [Uart.frame, h.settings.divisorHigh, h.settings.divisorLow, h.settings.lineControl, Uart.frame]

theorem wait (h : Sent u₀ u sent) (hback : u₀.loopback = false) : Sent u₀ u.wait sent := by
  have hback' := h.loopback.trans hback
  obtain ⟨cs, hcs⟩ := h.line
  obtain ⟨cs', hcs'⟩ := wait_line hback'
  have hset := wait_settings (u := u)
  refine ⟨⟨?_, ?_, ?_, ?_⟩, wait_runs h.runs, ⟨cs ++ cs', ?_⟩, ?_⟩
  · exact hset.divisorLow.trans h.settings.divisorLow
  · exact hset.divisorHigh.trans h.settings.divisorHigh
  · exact hset.lineControl.trans h.settings.lineControl
  · exact hset.modemControl.trans h.settings.modemControl
  · rw [hcs', hcs, h.frame, List.map_append, List.append_assoc]
  · rw [wait_output hback', h.output]

/-- A character written to an empty holding register. -/
theorem write (h : Sent u₀ u sent) (hback : u₀.loopback = false) (hlatch : u₀.latch = false)
    (hempty : u.holding = []) (c : BitVec 8) : Sent u₀ (u.outb 0 c) (sent ++ [c]) := by
  have hwait := h.wait hback
  have hempty' : u.wait.holding = [] := by rw [wait_holding, hempty, List.drop_nil]
  have hstore : u.outb 0 c = u.wait.transmit c := by
    rw [outb, store, hwait.latch, hlatch]
    rfl
  have hset := hwait.settings
  rw [hstore]
  refine ⟨⟨hset.divisorLow, hset.divisorHigh, hset.lineControl, hset.modemControl⟩, hwait.runs,
    hwait.line, ?_⟩
  rw [transmit_output hempty', hwait.output, List.append_assoc]

/-- What is on the line when all has gone out. -/
theorem flush_line (h : Sent u₀ u sent) (hback : u₀.loopback = false) :
    u.flush.line = u₀.line ++ (u₀.shift.toList ++ u₀.holding ++ sent).map u₀.frame := by
  obtain ⟨cs, hcs⟩ := h.line
  have hmap : (cs.map u₀.frame).map SerialFrame.data = cs := by
    rw [List.map_map]
    exact List.map_id cs
  have houtput := h.output
  rw [Uart.output, Uart.output, hcs, List.map_append, hmap] at houtput
  simp only [List.append_assoc, List.append_cancel_left_eq] at houtput
  rw [Uart.flush_line (h.loopback.trans hback), hcs, h.frame, List.append_assoc, ← List.map_append,
    houtput, List.append_assoc]

end Sent

end Uart

end ZeptoOS.Lib
