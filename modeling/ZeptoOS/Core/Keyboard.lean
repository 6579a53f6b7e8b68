import Mathlib.Data.BitVec
import Mathlib.Data.List.ReduceOption
import ZeptoOS.Lib.Ring
import ZeptoOS.Lib.Run

/-!
# Core — Keyboard

`kernel/core/keyboard.c`: the queue of characters between `keyboard_handler`, which an interrupt or
`keyboard_poll` calls, and `keyboard_get_char`.  What the ports deliver are arguments.

`KeyStep` is one step of a reader in `keyboard_get_char`, or an interrupt between two of them.  Over
any run the queue loses no character it has accepted (`keyboard_lossless`).
-/

namespace ZeptoOS.Core
open Lib

/-- `kbdus`, a US layout by scancode; the rest of its 128 entries is zero. -/
def kbdus : List (BitVec 8) :=
  [0, 27, 0x31, 0x32, 0x33, 0x34, 0x35, 0x36, 0x37, 0x38,
    0x39, 0x30, 0x2D, 0x3D, 0x08,
    0x09, 0x71, 0x77, 0x65, 0x72, 0x74, 0x79, 0x75, 0x69, 0x6F,
    0x70, 0x5B, 0x5D, 0x0A, 0,
    0x61, 0x73, 0x64, 0x66, 0x67, 0x68, 0x6A, 0x6B, 0x6C, 0x3B,
    0x27, 0x60, 0, 0x5C, 0x7A, 0x78, 0x63, 0x76, 0x62, 0x6E,
    0x6D, 0x2C, 0x2E, 0x2F, 0,
    0x2A, 0, 0x20, 0, 0,
    0, 0, 0, 0, 0, 0, 0, 0, 0, 0,
    0, 0, 0, 0, 0, 0, 0x2D, 0, 0, 0,
    0x2B, 0, 0, 0, 0, 0, 0, 0, 0, 0,
    0, 0]

/-- The static variables of `keyboard.c`. -/
structure Keyboard where
  buffer : ℕ → BitVec 8
  head : ℕ
  tail : ℕ
  pollCounter : BitVec 32

def bufferSize : ℕ := 256
def pollInterval : ℕ := 100000

/-- `keyboard_init` -/
def keyboardInit (k : Keyboard) : Keyboard :=
  { k with head := 0, tail := 0, pollCounter := 0 }

/-- `keyboard_handler`, where the data port delivers `scancode`. -/
def keyboardHandler (scancode : BitVec 8) (k : Keyboard) : Keyboard :=
  if scancode &&& 0x80 = 0 then
    let c := kbdus.getD scancode.toNat 0
    if c ≠ 0 then
      let next := (k.head + 1) % bufferSize
      if next ≠ k.tail then
        { k with buffer := Function.update k.buffer k.head c, head := next }
      else k
    else k
  else k

/-- `keyboard_poll` calls the handler: it is the turn to poll, and the status port says that there
is a scancode. -/
def PollHandles (status : BitVec 8) (k : Keyboard) : Prop :=
  pollInterval ≤ (k.pollCounter + 1).toNat ∧ status &&& 1 ≠ 0

instance (status : BitVec 8) (k : Keyboard) : Decidable (PollHandles status k) :=
  inferInstanceAs (Decidable (_ ∧ _))

/-- `keyboard_poll`, where the status port delivers `status` and then the data port `scancode`. -/
def keyboardPoll (status scancode : BitVec 8) (k : Keyboard) : Keyboard :=
  if pollInterval ≤ (k.pollCounter + 1).toNat then
    if status &&& 1 ≠ 0 then keyboardHandler scancode { k with pollCounter := 0 }
    else { k with pollCounter := 0 }
  else { k with pollCounter := k.pollCounter + 1 }

/-! ### Steps -/

/-- Where a reader is in `keyboard_get_char`: not in it, before `keyboard_poll`, behind it in
`keyboard_has_char`, behind the loop, or with the character that it returns. -/
inductive Reader where
  | idle
  | waiting
  | polled
  | ready
  | fetched (c : BitVec 8)

structure KeyState where
  kb : Keyboard
  reader : Reader

/-- What can be seen of a step: a call of `keyboard_handler`, or `keyboard_get_char` returning. -/
inductive KeyEvent where
  | handler (scancode : BitVec 8)
  | getChar (c : BitVec 8)

inductive KeyStep : KeyState → Option KeyEvent → KeyState → Prop where
  | interrupt (kb : Keyboard) (reader : Reader) (scancode : BitVec 8) :
      KeyStep ⟨kb, reader⟩ (some (.handler scancode)) ⟨keyboardHandler scancode kb, reader⟩
  | call (kb : Keyboard) : KeyStep ⟨kb, .idle⟩ none ⟨kb, .waiting⟩
  | poll {kb : Keyboard} {status : BitVec 8} (scancode : BitVec 8) (h : ¬ PollHandles status kb) :
      KeyStep ⟨kb, .waiting⟩ none ⟨keyboardPoll status scancode kb, .polled⟩
  | pollHandler {kb : Keyboard} {status : BitVec 8} (scancode : BitVec 8)
      (h : PollHandles status kb) :
      KeyStep ⟨kb, .waiting⟩ (some (.handler scancode)) ⟨keyboardPoll status scancode kb, .polled⟩
  | again {kb : Keyboard} (h : kb.head = kb.tail) : KeyStep ⟨kb, .polled⟩ none ⟨kb, .waiting⟩
  | hasChar {kb : Keyboard} (h : kb.head ≠ kb.tail) : KeyStep ⟨kb, .polled⟩ none ⟨kb, .ready⟩
  | fetch (kb : Keyboard) :
      KeyStep ⟨kb, .ready⟩ none ⟨kb, .fetched (kb.buffer kb.tail)⟩
  | ret (kb : Keyboard) (c : BitVec 8) :
      KeyStep ⟨kb, .fetched c⟩ (some (.getChar c))
        ⟨{ kb with tail := (kb.tail + 1) % bufferSize }, .idle⟩

/-! ### The bounded queue -/

/-- The character of a key press, if it has one. -/
def keyPress (scancode : BitVec 8) : Option (BitVec 8) :=
  if scancode &&& 0x80 = 0 ∧ kbdus.getD scancode.toNat 0 ≠ 0 then
    some (kbdus.getD scancode.toNat 0)
  else none

/-- The characters a queue for 255 has accepted, and those it has returned. -/
structure KeyLog where
  accepted : List (BitVec 8)
  returned : List (BitVec 8)

/-- A key press is accepted if fewer than 255 characters are pending, and else dropped. -/
def KeyLog.after (l : KeyLog) : KeyEvent → KeyLog
  | .handler scancode =>
      match keyPress scancode with
      | some c =>
          if l.accepted.length - l.returned.length < 255 then
            { l with accepted := l.accepted ++ [c] }
          else l
      | none => l
  | .getChar c => { l with returned := l.returned ++ [c] }

/-- What the queue has accepted and returned after some steps. -/
def keyLog (steps : List (Option KeyEvent)) : KeyLog :=
  steps.reduceOption.foldl KeyLog.after ⟨[], []⟩

/-- The characters in the buffer that were not read. -/
def Keyboard.Holds (k : Keyboard) (pending : List (BitVec 8)) : Prop :=
  RingHolds bufferSize k.buffer k.head k.tail pending

/-- What `keyboard_handler` does to a buffer with these characters in it. -/
structure HandlerExact (k : Keyboard) (pending : List (BitVec 8)) : Prop where
  accepts : ∀ scancode c, keyPress scancode = some c → pending.length < 255 →
    (keyboardHandler scancode k).Holds (pending ++ [c])
  drops : ∀ scancode, 255 ≤ pending.length → keyboardHandler scancode k = k
  ignores : ∀ scancode, keyPress scancode = none → keyboardHandler scancode k = k

section

variable {k : Keyboard} {pending : List (BitVec 8)} {scancode status : BitVec 8} {l : KeyLog}
  {reader : Reader}

theorem keyboardHandler_eq (k : Keyboard) (scancode : BitVec 8) :
    keyboardHandler scancode k =
      match keyPress scancode with
      | some c =>
          if (k.head + 1) % bufferSize ≠ k.tail then
            { k with
              buffer := Function.update k.buffer k.head c
              head := (k.head + 1) % bufferSize }
          else k
      | none => k := by
  by_cases hpress : scancode &&& 0x80 = 0
  · by_cases hchar : kbdus.getD scancode.toNat 0 = 0
    · have hkey : keyPress scancode = none := if_neg fun h => h.2 hchar
      rw [keyboardHandler, hkey, if_pos hpress]
      exact if_neg (not_not_intro hchar)
    · have hkey : keyPress scancode = some (kbdus.getD scancode.toNat 0) := if_pos ⟨hpress, hchar⟩
      rw [keyboardHandler, hkey, if_pos hpress]
      exact if_pos hchar
  · have hkey : keyPress scancode = none := if_neg fun h => hpress h.1
    rw [keyboardHandler, hkey, if_neg hpress]

theorem Keyboard.Holds.full_iff (h : k.Holds pending) :
    (k.head + 1) % bufferSize = k.tail ↔ 255 ≤ pending.length := by
  have hfits : pending.length < 256 := h.fits
  rw [RingHolds.full_iff h, bufferSize]
  omega

theorem Keyboard.Holds.handlerExact (h : k.Holds pending) : HandlerExact k pending where
  accepts := by
    intro scancode c hkey hroom
    have hnot : (k.head + 1) % bufferSize ≠ k.tail :=
      fun e => Nat.not_le.mpr hroom (h.full_iff.mp e)
    rw [keyboardHandler_eq, hkey]
    dsimp only
    rw [if_pos hnot]
    exact RingHolds.push h (Nat.succ_lt_succ hroom) c
  drops := by
    intro scancode hfull
    rw [keyboardHandler_eq]
    split
    · exact if_neg (not_not_intro (h.full_iff.mpr hfull))
    · rfl
  ignores := by
    intro scancode hnone
    rw [keyboardHandler_eq, hnone]

/-! ### Runs -/

/-- A reader past the loop has a character, and one that has fetched it has the first. -/
def Reader.Sees (pending : List (BitVec 8)) : Reader → Prop
  | .idle | .waiting | .polled => True
  | .ready => pending ≠ []
  | .fetched c => pending.head? = some c

theorem keyLog_snoc (steps : List (Option KeyEvent)) (e : Option KeyEvent) :
    keyLog (steps ++ [e]) = e.elim (keyLog steps) (keyLog steps).after := by
  rw [keyLog, List.reduceOption_append, List.foldl_append]
  cases e <;> rfl

/-- What the log says is pending is in the buffer. -/
structure KeyInv (l : KeyLog) (st : KeyState) (pending : List (BitVec 8)) : Prop where
  holds : st.kb.Holds pending
  log : l.accepted = l.returned ++ pending
  sees : st.reader.Sees pending

theorem Reader.Sees.append (h : reader.Sees pending) (c : BitVec 8) :
    reader.Sees (pending ++ [c]) := by
  cases reader with
  | idle | waiting | polled => trivial
  | ready => simp [Reader.Sees]
  | fetched c' =>
      cases pending with
      | nil => cases h
      | cons a pending => exact h

theorem KeyLog.pending_eq (h : l.accepted = l.returned ++ pending) :
    l.accepted.length - l.returned.length = pending.length := by
  rw [h, List.length_append, Nat.add_sub_cancel_left]

/-- **A call of the handler** does to the buffer what it does to the queue. -/
theorem KeyInv.handler (h : KeyInv l ⟨k, reader⟩ pending) (scancode : BitVec 8) :
    ∃ pending', KeyInv (l.after (.handler scancode)) ⟨keyboardHandler scancode k, reader⟩
      pending' := by
  have hexact : HandlerExact k pending := h.holds.handlerExact
  rw [KeyLog.after]
  cases hkey : keyPress scancode with
  | none =>
      rw [hexact.ignores scancode hkey]
      exact ⟨pending, h⟩
  | some c =>
      dsimp only
      rw [KeyLog.pending_eq h.log]
      split
      · rename_i hroom
        refine ⟨pending ++ [c], hexact.accepts scancode c hkey hroom, ?_, h.sees.append c⟩
        rw [← List.append_assoc, ← h.log]
      · rename_i hfull
        rw [hexact.drops scancode (Nat.not_lt.mp hfull)]
        exact ⟨pending, h⟩

/-- Where `keyboard_poll` does not call the handler, it only counts. -/
theorem keyboardPoll_quiet (h : ¬ PollHandles status k) (scancode : BitVec 8) :
    ∃ n, keyboardPoll status scancode k = { k with pollCounter := n } := by
  rw [keyboardPoll]
  split
  · rename_i hturn
    exact ⟨0, if_neg fun hdata => h ⟨hturn, hdata⟩⟩
  · exact ⟨k.pollCounter + 1, rfl⟩

theorem keyboardPoll_handler (h : PollHandles status k) (scancode : BitVec 8) :
    keyboardPoll status scancode k = keyboardHandler scancode { k with pollCounter := 0 } := by
  rw [keyboardPoll, if_pos h.1, if_pos h.2]

/-- **A step** keeps the buffer and the log in agreement. -/
theorem KeyInv.step {st st' : KeyState} {e : Option KeyEvent} (h : KeyInv l st pending)
    (hstep : KeyStep st e st') :
    ∃ pending', KeyInv (e.elim l l.after) st' pending' := by
  cases hstep with
  | interrupt kb reader scancode => exact h.handler scancode
  | call kb => exact ⟨pending, h.holds, h.log, trivial⟩
  | poll scancode hquiet =>
      obtain ⟨n, hpoll⟩ := keyboardPoll_quiet hquiet scancode
      rw [hpoll]
      exact ⟨pending, h.holds, h.log, trivial⟩
  | @pollHandler kb status scancode hhandles =>
      have hreset : KeyInv l ⟨{ kb with pollCounter := 0 }, .polled⟩ pending :=
        ⟨h.holds, h.log, trivial⟩
      rw [keyboardPoll_handler hhandles]
      exact hreset.handler scancode
  | again hempty => exact ⟨pending, h.holds, h.log, trivial⟩
  | hasChar hne => exact ⟨pending, h.holds, h.log, mt (RingHolds.empty_iff h.holds).mpr hne⟩
  | fetch kb =>
      cases pending with
      | nil => exact absurd rfl h.sees
      | cons c pending =>
          exact ⟨c :: pending, h.holds, h.log, congrArg some (RingHolds.pop h.holds).1.symm⟩
  | ret kb c =>
      cases pending with
      | nil => cases h.sees
      | cons c' pending =>
          obtain rfl : c' = c := Option.some.inj h.sees
          refine ⟨pending, (RingHolds.pop h.holds).2, ?_, trivial⟩
          rw [Option.elim, KeyLog.after, h.log, List.append_assoc]
          rfl

/-- Key presses while nothing reads. -/
theorem keyPresses_run (scancodes : List (BitVec 8)) (k : Keyboard) :
    Run KeyStep ⟨k, .idle⟩ (scancodes.map fun c => some (.handler c))
      ⟨scancodes.foldl (fun k c => keyboardHandler c k) k, .idle⟩ := by
  induction scancodes generalizing k with
  | nil => exact .refl _
  | cons c scancodes ih => exact .more (.interrupt k .idle c) (ih _)

/-- What a call of `keyboard_get_char` takes that finds a character. -/
def getCharSteps (c : BitVec 8) : List (Option KeyEvent) :=
  [none, none, none, none, some (.getChar c)]

/-- **A call returns** the first character there is. -/
theorem getChar_run {c : BitVec 8} (h : k.Holds (c :: pending)) :
    ∃ k', Run KeyStep ⟨k, .idle⟩ (getCharSteps c) ⟨k', .idle⟩ := by
  have hquiet : ¬ PollHandles 0 k := fun hdata => hdata.2 rfl
  have hchar : k.head ≠ k.tail := mt (RingHolds.empty_iff h).mp (List.cons_ne_nil c pending)
  have hfirst : k.buffer k.tail = c := (RingHolds.pop h).1
  obtain ⟨n, hpoll⟩ := keyboardPoll_quiet hquiet 0
  have hpolled : KeyStep ⟨k, .waiting⟩ none ⟨{ k with pollCounter := n }, .polled⟩ :=
    hpoll ▸ .poll 0 hquiet
  have hread : KeyStep ⟨{ k with pollCounter := n }, .ready⟩ none
      ⟨{ k with pollCounter := n }, .fetched c⟩ := hfirst ▸ .fetch _
  exact ⟨_, .more (.call k) (.more hpolled (.more (.hasChar hchar)
    (.more hread (.one (.ret _ c)))))⟩

end

/-- **The keyboard queue is a lossless bounded FIFO.**  In every state that a reader and interrupts
reach from `keyboard_init`, the characters returned are the first of those accepted, and the rest is
in the buffer; a key press is accepted there if fewer than 255 characters are, and else nothing
changes. -/
theorem keyboard_lossless {k₀ : Keyboard} {steps : List (Option KeyEvent)} {st : KeyState}
    (hrun : Run KeyStep ⟨keyboardInit k₀, .idle⟩ steps st) :
    st.kb.head < 256 ∧ st.kb.tail < 256 ∧ ∃ pending,
      (keyLog steps).accepted = (keyLog steps).returned ++ pending ∧ pending.length ≤ 255 ∧
        st.kb.Holds pending ∧ HandlerExact st.kb pending := by
  have hinit : ∃ pending, KeyInv (keyLog []) ⟨keyboardInit k₀, .idle⟩ pending :=
    ⟨[], RingHolds.nil _ (Nat.zero_lt_succ 255), rfl, trivial⟩
  have hstep : ∀ {ls : List (Option KeyEvent)} {s e s'}, (∃ pending, KeyInv (keyLog ls) s pending) →
      KeyStep s e s' → ∃ pending, KeyInv (keyLog (ls ++ [e])) s' pending := by
    rintro ls s e s' ⟨pending, h⟩ hs
    rw [keyLog_snoc]
    exact h.step hs
  obtain ⟨pending, h⟩ := hrun.inv_history
    (I := fun ls s => ∃ pending, KeyInv (keyLog ls) s pending) hstep hinit
  rw [List.nil_append] at h
  exact ⟨RingHolds.head_lt h.holds, RingHolds.tail_lt h.holds, pending, h.log,
    Nat.le_of_lt_succ h.holds.fits, h.holds, h.holds.handlerExact⟩

/-- One key more than there is room for: `a`, `b` and 254 times `c`. -/
def manyKeys : List (BitVec 8) := 0x1E :: 0x30 :: List.replicate 254 0x2E

def manyPresses : List (Option KeyEvent) := manyKeys.map fun c => some (.handler c)

/-- After the presses, a call that reads one character, and a press of `d`. -/
def manySteps : List (Option KeyEvent) :=
  manyPresses ++ getCharSteps 0x61 ++ [some (.handler 0x20)]

/-- The last `c` does not fit, and `d` takes the place of the character read. -/
theorem keyboard_lossless_full :
    ∃ (k₀ : Keyboard) (st : KeyState), Run KeyStep ⟨keyboardInit k₀, .idle⟩ manySteps st ∧
      st.kb.Holds (0x62 :: (List.replicate 253 0x63 ++ [0x64])) := by
  let k₀ : Keyboard := ⟨fun _ => 0, 0, 0, 0⟩
  obtain ⟨k, hpress⟩ : ∃ k, Run KeyStep ⟨keyboardInit k₀, .idle⟩ manyPresses ⟨k, .idle⟩ :=
    ⟨_, keyPresses_run manyKeys (keyboardInit k₀)⟩
  obtain ⟨-, -, pending, hlog, -, hholds, -⟩ := keyboard_lossless hpress
  have haccepted : (keyLog manyPresses).accepted =
      (keyLog manyPresses).returned ++ 0x61 :: 0x62 :: List.replicate 253 0x63 := by
    decide +kernel
  obtain rfl := List.append_cancel_left (hlog.symm.trans haccepted)
  obtain ⟨k', hread⟩ := getChar_run hholds
  have hrun : Run KeyStep ⟨keyboardInit k₀, .idle⟩ manySteps _ :=
    (hpress.trans hread).trans (.one (.interrupt k' .idle 0x20))
  obtain ⟨-, -, pending, hlog, -, hholds, -⟩ := keyboard_lossless hrun
  have haccepted : (keyLog manySteps).accepted =
      (keyLog manySteps).returned ++ 0x62 :: (List.replicate 253 0x63 ++ [0x64]) := by
    decide +kernel
  obtain rfl := List.append_cancel_left (hlog.symm.trans haccepted)
  exact ⟨k₀, _, hrun, hholds⟩

end ZeptoOS.Core
