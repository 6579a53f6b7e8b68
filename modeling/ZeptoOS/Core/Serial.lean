import ZeptoOS.Core.Vga
import ZeptoOS.Lib.Fuel
import ZeptoOS.Lib.Uart

/-!
# Core — Serial

`kernel/core/serial.c`, and `tty_write` of `kernel/core/vga.c` with the copy of the text that it
sends to the serial port.

After `serial_init` the port is the console's log (`console_logged`): whatever its registers were,
and however long it takes for a character, `tty_write` returns, no character is lost or out of
order, and each newline is sent as a carriage return and a newline.  `uncrlf` reads the text back
from that, so that the log determines the screen.
-/

namespace ZeptoOS.Core
open Lib

/-- `serial_init` -/
def serialInit (u : Uart) : Uart :=
  let u := u.outb 1 0x00
  let u := u.outb 3 0x80
  let u := u.outb 0 0x03
  let u := u.outb 1 0x00
  let u := u.outb 3 0x03
  let u := u.outb 2 0xC7
  u.outb 4 0x0B

/-- `serial_write`, with `fuel` turns of its loop. -/
def serialWrite : ℕ → BitVec 8 → Uart → Option Uart
  | 0, _, _ => none
  | fuel + 1, c, u =>
      -- `is_transmit_empty`
      let (status, u) := u.inbStatus
      if status &&& 0x20 = 0 then serialWrite fuel c u else some (u.outb 0 c)

/-- `serial_printf` -/
def serialPrintf (fuel : ℕ) : List (BitVec 8) → Uart → Option Uart
  | [], u => some u
  | c :: str, u =>
      if c = 0 then some u
      else
        (if c = 0x0A then serialWrite fuel 0x0D u else some u).bind fun u =>
          (serialWrite fuel c u).bind (serialPrintf fuel str)

/-- The screen and the serial port. -/
structure Console where
  uart : Uart
  vga : Vga

/-- `tty_write` -/
def Console.ttyWrite (fuel : ℕ) (c : Console) (str : List (BitVec 8)) : Option Console :=
  (serialPrintf fuel str c.uart).map fun u => ⟨u, c.vga.ttyWrite str⟩

/-- Strings written one after another. -/
def Console.ttyWrites (fuel : ℕ) : List (List (BitVec 8)) → Console → Option Console
  | [], c => some c
  | str :: strs, c => (c.ttyWrite fuel str).bind (ttyWrites fuel strs)

/-- `serial_init` and `kcls`, as `kmain` calls them. -/
def Console.init (c : Console) : Console := ⟨serialInit c.uart, c.vga.kcls⟩

/-! ### The text on the line -/

/-- A text with a carriage return before each newline. -/
def crlf (text : List (BitVec 8)) : List (BitVec 8) :=
  text.flatMap fun c => if c = 0x0A then [0x0D, 0x0A] else [c]

/-- The text without the carriage returns before newlines. -/
def uncrlf : List (BitVec 8) → List (BitVec 8)
  | c :: d :: cs => if c = 0x0D ∧ d = 0x0A then 0x0A :: uncrlf cs else c :: uncrlf (d :: cs)
  | cs => cs

theorem crlf_cons (c : BitVec 8) (text : List (BitVec 8)) :
    crlf (c :: text) = (if c = 0x0A then [0x0D, 0x0A] else [c]) ++ crlf text :=
  List.flatMap_cons ..

/-- No such text begins with a newline. -/
theorem head_crlf_ne {d : BitVec 8} {cs text : List (BitVec 8)} (h : crlf text = d :: cs) :
    d ≠ 0x0A := by
  cases text with
  | nil => cases h
  | cons c text =>
      rw [crlf_cons] at h
      split at h
      · obtain ⟨rfl, -⟩ := List.cons.inj h
        decide
      · rename_i hc
        obtain ⟨rfl, -⟩ := List.cons.inj h
        exact hc

/-- **The text is read back.** -/
theorem uncrlf_crlf (text : List (BitVec 8)) : uncrlf (crlf text) = text := by
  induction text with
  | nil => rfl
  | cons c text ih =>
      rw [crlf_cons]
      split
      · rename_i hc
        rw [hc]
        simp only [List.cons_append, List.nil_append]
        rw [uncrlf, if_pos ⟨rfl, rfl⟩, ih]
      · cases hrest : crlf text with
        | nil =>
            rw [hrest] at ih
            rw [← ih]
            rfl
        | cons d cs =>
            rw [hrest] at ih
            rw [List.singleton_append, uncrlf, if_neg fun h => head_crlf_ne hrest h.2, ih]

theorem crlf_append (text text' : List (BitVec 8)) :
    crlf (text ++ text') = crlf text ++ crlf text' :=
  List.flatMap_append

/-! ### The port after `serial_init` -/

/-- The port sends, eight bits without parity and one stop bit, at a third of the base rate. -/
structure Ready (u : Uart) : Prop where
  runs : u.Runs
  loopback : u.loopback = false
  latch : u.latch = false
  frame : ∀ c, u.frame c = ⟨c, 3, 0x03⟩
  empty : u.holding = []

/-- What the seven stores leave, whatever the registers were. -/
theorem serialInit_registers (u : Uart) :
    (serialInit u).lineControl = 0x03 ∧ (serialInit u).modemControl = 0x0B ∧
      (serialInit u).divisorHigh = 0 ∧ (serialInit u).divisorLow = 3 ∧
      (serialInit u).holding = [] := by
  simp [serialInit, Uart.outb, Uart.store, Uart.latch, Uart.fifoControl, Uart.wait_holding]

theorem serialInit_ready {u : Uart} (h : u.Runs) : Ready (serialInit u) := by
  obtain ⟨hcontrol, hmodem, hhigh, hlow, hempty⟩ := serialInit_registers u
  refine ⟨?_, ?_, ?_, fun c => ?_, hempty⟩
  · rw [serialInit]
    repeat' apply Uart.outb_runs
    exact h
  · rw [Uart.loopback, hmodem]
    rfl
  · rw [Uart.latch, hcontrol]
    rfl
  · rw [Uart.frame, hcontrol, hhigh, hlow]
    rfl

variable {u₀ u : Uart} {sent : List (BitVec 8)}

/-- **`serial_write` returns**, and the character is sent. -/
theorem serialWrite_returns (h₀ : Ready u₀) (h : u₀.Sent u sent) (c : BitVec 8) :
    ∃ u', Returns (fun fuel => serialWrite fuel c u) u' ∧ u₀.Sent u' (sent ++ [c]) := by
  -- the characters before it go out one by one, each when the transmitter gets on
  induction hn : u.holding.length using Nat.strong_induction_on generalizing u with
  | _ n ihn =>
      obtain ⟨m, -, hpos⟩ := h.runs 0
      induction m generalizing u with
      | zero =>
          by_cases hempty : u.wait.holding = []
          · exact ⟨_, .stop fun fuel => if_neg fun h' => Uart.lineStatus_empty.mp h' hempty,
              (h.wait h₀.loopback).write h₀.loopback h₀.latch hempty c⟩
          · have hlt : u.wait.holding.length < n := by
              have hne := List.length_pos_iff.mpr hempty
              rw [Uart.wait_holding, List.length_drop] at hne ⊢
              omega
            obtain ⟨u', hret, hsent⟩ := ihn _ hlt (h.wait h₀.loopback) rfl
            exact ⟨u', hret.skip fun fuel => if_pos (Uart.lineStatus_empty.mpr hempty), hsent⟩
      | succ m ihm =>
          by_cases hempty : u.wait.holding = []
          · exact ⟨_, .stop fun fuel => if_neg fun h' => Uart.lineStatus_empty.mp h' hempty,
              (h.wait h₀.loopback).write h₀.loopback h₀.latch hempty c⟩
          · have hle : u.wait.holding.length ≤ n := by
              rw [Uart.wait_holding, List.length_drop]
              omega
            have hnext : ∃ u', Returns (fun fuel => serialWrite fuel c u.wait) u' ∧
                u₀.Sent u' (sent ++ [c]) := by
              rcases Nat.lt_or_eq_of_le hle with hlt | heq
              · exact ihn _ hlt (h.wait h₀.loopback) rfl
              · exact ihm (h.wait h₀.loopback) heq hpos
            obtain ⟨u', hret, hsent⟩ := hnext
            exact ⟨u', hret.skip fun fuel => if_pos (Uart.lineStatus_empty.mpr hempty), hsent⟩

/-- **A text on the line.** -/
theorem serialPrintf_returns (h₀ : Ready u₀) (str : List (BitVec 8)) (h : u₀.Sent u sent) :
    ∃ u', Returns (fun fuel => serialPrintf fuel str u) u' ∧
      u₀.Sent u' (sent ++ crlf (Vga.chars str)) := by
  induction str generalizing u sent with
  | nil => exact ⟨u, .pure u, by rwa [Vga.chars, List.takeWhile_nil, crlf, List.flatMap_nil,
      List.append_nil]⟩
  | cons c str ih =>
      by_cases hc : c = 0
      · refine ⟨u, ?_, ?_⟩
        · simpa only [serialPrintf, if_pos hc] using Returns.pure u
        · rwa [Vga.chars, List.takeWhile_cons_of_neg (by simpa using hc), crlf, List.flatMap_nil,
            List.append_nil]
      · have hchars : Vga.chars (c :: str) = c :: Vga.chars str :=
          List.takeWhile_cons_of_pos (by simpa using hc)
        -- the carriage return, if one is due
        have hreturn : ∃ u₁, Returns (fun fuel =>
            if c = 0x0A then serialWrite fuel 0x0D u else some u) u₁ ∧
              u₀.Sent u₁ (sent ++ if c = 0x0A then [0x0D] else []) := by
          by_cases hnl : c = 0x0A
          · simp only [if_pos hnl]
            exact serialWrite_returns h₀ h 0x0D
          · simp only [if_neg hnl, List.append_nil]
            exact ⟨u, .pure u, h⟩
        obtain ⟨u₁, hret₁, hsent₁⟩ := hreturn
        obtain ⟨u₂, hret₂, hsent₂⟩ := serialWrite_returns h₀ hsent₁ c
        obtain ⟨u₃, hret₃, hsent₃⟩ := ih hsent₂
        refine ⟨u₃, ?_, ?_⟩
        · simpa only [serialPrintf, if_neg hc] using hret₁.bind (hret₂.bind hret₃)
        · have hcrlf : crlf (c :: Vga.chars str) =
              (if c = 0x0A then [0x0D] else []) ++ [c] ++ crlf (Vga.chars str) := by
            rw [crlf_cons]
            split
            · rename_i hnl
              rw [hnl]
              rfl
            · rfl
          rw [hchars, hcrlf]
          simpa only [List.append_assoc] using hsent₃

/-- The strings on the line and on the screen. -/
theorem ttyWrites_returns (h₀ : Ready u₀) (strs : List (List (BitVec 8))) {c : Console}
    (h : u₀.Sent c.uart sent) : ∃ u', Returns (fun fuel => Console.ttyWrites fuel strs c)
      ⟨u', strs.foldl Vga.ttyWrite c.vga⟩ ∧
        u₀.Sent u' (sent ++ crlf (strs.flatMap Vga.chars)) := by
  induction strs generalizing c sent with
  | nil => exact ⟨c.uart, .pure c, by rwa [List.flatMap_nil, crlf, List.flatMap_nil,
      List.append_nil]⟩
  | cons str strs ih =>
      obtain ⟨u₁, hret₁, hsent₁⟩ := serialPrintf_returns h₀ str h
      obtain ⟨u₂, hret₂, hsent₂⟩ := ih (c := ⟨u₁, c.vga.ttyWrite str⟩) hsent₁
      refine ⟨u₂, ?_, ?_⟩
      · have hstr : Returns (fun fuel => c.ttyWrite fuel str) ⟨u₁, c.vga.ttyWrite str⟩ :=
          hret₁.map _
        exact hstr.bind hret₂
      · rw [List.flatMap_cons, crlf_append, ← List.append_assoc]
        exact hsent₂

/-- What went out on the line after `u₀`, once all has gone out, without what was in the shift
register then. -/
def logSince (u₀ u : Uart) : List SerialFrame :=
  u.flush.line.drop (u₀.line.length + u₀.shift.toList.length)

/-- The log since `serial_init`. -/
theorem init_logs (c : Console) (hruns : c.uart.Runs) (strs : List (List (BitVec 8))) :
    ∃ u', Returns (fun fuel => Console.ttyWrites fuel strs c.init)
        ⟨u', strs.foldl Vga.ttyWrite c.vga.kcls⟩ ∧
      c.init.uart.line <+: u'.line ∧ u'.line <+: u'.flush.line ∧
      logSince c.init.uart u' = (crlf (strs.flatMap Vga.chars)).map (fun b => ⟨b, 3, 0x03⟩) := by
  have h₀ : Ready c.init.uart := serialInit_ready hruns
  obtain ⟨u', hret, hsent⟩ := ttyWrites_returns h₀ strs (c := c.init) (Uart.Sent.refl h₀.runs)
  rw [List.nil_append] at hsent
  have hline := hsent.flush_line h₀.loopback
  rw [h₀.empty, List.append_nil, List.map_append, ← List.append_assoc] at hline
  refine ⟨u', hret, ?_, ?_, ?_⟩
  · obtain ⟨cs, hcs⟩ := hsent.line
    exact ⟨_, hcs.symm⟩
  · obtain ⟨cs, hcs⟩ := Uart.tick_line (hsent.loopback.trans h₀.loopback) (u'.holding.length + 1)
    exact ⟨_, hcs.symm⟩
  · rw [logSince, hline, List.drop_left' (by simp)]
    exact List.map_congr_left fun b _ => h₀.frame b

/-- The text that a log reads back as. -/
def readBack (log : List SerialFrame) : List (BitVec 8) := uncrlf (log.map SerialFrame.data)

theorem readBack_log (text : List (BitVec 8)) :
    readBack ((crlf text).map fun b => ⟨b, 3, 0x03⟩) = text := by
  have hdata : ((crlf text).map fun b => (⟨b, 3, 0x03⟩ : SerialFrame)).map SerialFrame.data =
      crlf text := by
    rw [List.map_map]
    exact List.map_id _
  rw [readBack, hdata, uncrlf_crlf]

/-- **The serial port is the console's log.**  From any state of a port that runs, and for any
strings: the writes return; what goes out on the line is the text with a carriage return before each
newline, eight bits at a third of the base rate, behind what was there and at most one character
from before; and the screen shows the layout of the text that the log reads back as. -/
theorem console_logged (c : Console) (hruns : c.uart.Runs) (strs : List (List (BitVec 8))) :
    ∃ c' : Console, Returns (fun fuel => Console.ttyWrites fuel strs c.init) c' ∧
      c.init.uart.line <+: c'.uart.line ∧ c'.uart.line <+: c'.uart.flush.line ∧
      logSince c.init.uart c'.uart =
        (crlf (strs.flatMap Vga.chars)).map (fun b => ⟨b, 3, 0x03⟩) ∧
      Vga.Shows (Vga.layout (readBack (logSince c.init.uart c'.uart))) c'.vga := by
  obtain ⟨u', hret, hline, hflush, hlog⟩ := init_logs c hruns strs
  refine ⟨_, hret, hline, hflush, hlog, ?_⟩
  rw [hlog, readBack_log]
  have hblank : Vga.Shows (Vga.layout []) c.vga.kcls := Vga.shows_kcls c.vga
  exact (hblank.ttyWrites strs).1

/-- `hi` and a newline, through a port that is found with its divisor latch open and two characters
still to go. -/
theorem console_logged_hi : ∃ c c' : Console,
    c.uart.latch = true ∧ c.uart.holding.length = 2 ∧
      Returns (fun fuel => Console.ttyWrites fuel [[0x68, 0x69, 0x0A]] c.init) c' ∧
      (logSince c.init.uart c'.uart).map SerialFrame.data = [0x68, 0x69, 0x0D, 0x0A] := by
  let u : Uart := ⟨0x01, 0x00, 0x0F, 0x83, 0x10, true, [0x61, 0x62], none, [], fun _ => 1⟩
  have hruns : u.Runs := fun n => ⟨n, le_refl n, Nat.one_pos⟩
  obtain ⟨c', hret, -, -, hlog, -⟩ :=
    console_logged ⟨u, ⟨fun _ => 0, 0, []⟩⟩ hruns [[0x68, 0x69, 0x0A]]
  refine ⟨⟨u, _⟩, c', by simp [Uart.latch, u], rfl, hret, ?_⟩
  rw [hlog]
  decide

end ZeptoOS.Core
