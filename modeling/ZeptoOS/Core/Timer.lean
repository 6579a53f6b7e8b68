import ZeptoOS.Core.Tables
import ZeptoOS.Lib.Pic

/-!
# Core — Timer

`kernel/core/pic.c` with the interrupt controllers behind it: `pic_remap`, `timer_handler` and the
end of `irq1_stub`.  `Board` is the controllers, the counters of the timer and what the processor is
at, and `BoardStep` what happens to it: devices may request at any time.

`interrupts_serviced`: whatever state the controllers were in before, after `pic_remap` only the
timer and the keyboard interrupt the processor; every request is delivered, once, as soon as
interrupts are enabled, and the counters count the ticks.
-/

namespace ZeptoOS.Core
open Lib

/-! ### The drivers -/

/-- `pic_remap` -/
def picRemap (c : PicPair) : PicPair :=
  let c := c.outb 0x20 0x11
  let c := c.outb 0xA0 0x11
  let c := c.outb 0x21 0x20
  let c := c.outb 0xA1 0x28
  let c := c.outb 0x21 0x04
  let c := c.outb 0xA1 0x02
  let c := c.outb 0x21 0x01
  let c := c.outb 0xA1 0x01
  let c := c.outb 0x21 0xFC
  c.outb 0xA1 0xFF

/-- `system_tick` and `seconds`. -/
structure Clock where
  systemTick : BitVec 32
  seconds : BitVec 32

/-- The counters in `timer_handler`. -/
def Clock.tick (k : Clock) : Clock :=
  let systemTick := k.systemTick + 1
  if 100 ≤ systemTick then ⟨0, k.seconds + 1⟩ else ⟨systemTick, k.seconds⟩

/-- `timer_handler` -/
def timerHandler (c : PicPair) (k : Clock) : PicPair × Clock := (c.outb 0x20 0x20, k.tick)

/-! ### The board -/

/-- What the processor is at: the boot, with interrupts masked; a program, with interrupts enabled;
an interrupt that is not acknowledged yet; or the rest of a kernel entry. -/
inductive Phase where
  | boot | running | serving (v : ℕ) | kernel
deriving DecidableEq

structure Board where
  pics : PicPair
  clock : Clock
  phase : Phase

/-- What happens to a board. -/
inductive BoardEvent where
  | raise (n : ℕ)
  | sti
  | deliver (v : ℕ)
  | timer
  | keyboard
  | syscall
  | exit
  | iret

/-- One event.  `task_exit` ends in `int $32`, in a system call. -/
inductive BoardStep : Board → BoardEvent → Board → Prop where
  | raise (b : Board) (n : ℕ) : BoardStep b (.raise n) { b with pics := b.pics.raise n }
  | sti {b : Board} (h : b.phase = .boot) : BoardStep b .sti { b with phase := .running }
  | deliver {b : Board} {v : ℕ} {pics : PicPair} (h : b.phase = .running)
      (hv : b.pics.acknowledge = some (v, pics)) :
      BoardStep b (.deliver v) { b with pics, phase := .serving v }
  | timer {b : Board} (h : b.phase = .serving 32) :
      BoardStep b .timer ⟨(timerHandler b.pics b.clock).1, (timerHandler b.pics b.clock).2, .kernel⟩
  | keyboard {b : Board} (h : b.phase = .serving 33) :
      BoardStep b .keyboard { b with pics := b.pics.outb 0x20 0x20, phase := .kernel }
  | syscall {b : Board} (h : b.phase = .running) :
      BoardStep b .syscall { b with phase := .kernel }
  | exit {b : Board} (h : b.phase = .kernel) :
      BoardStep b .exit ⟨(timerHandler b.pics b.clock).1, (timerHandler b.pics b.clock).2, .kernel⟩
  | iret {b : Board} (h : b.phase = .kernel) : BoardStep b .iret { b with phase := .running }

/-- What an event says of a request on line `n`. -/
def BoardEvent.requests (n : ℕ) : BoardEvent → Option Bool
  | .raise m => if m = n then some true else none
  | .deliver v => if v = 32 + n then some false else none
  | _ => none

/-- Line `n` was raised, and not delivered since. -/
def outstanding (n : ℕ) (es : List BoardEvent) : Bool :=
  (es.reverse.findSome? (BoardEvent.requests n)).getD false

/-- An event that runs `timer_handler`. -/
def BoardEvent.isTick : BoardEvent → Bool
  | .timer | .exit => true
  | _ => false

/-- How often `timer_handler` ran. -/
def ticks (es : List BoardEvent) : ℕ := es.countP BoardEvent.isTick

/-! ### After `pic_remap` -/

/-- The controllers as `pic_remap` sets them up. -/
structure Remapped (c : PicPair) : Prop where
  base : c.master.base = 0x20
  mask : ∀ n < 8, c.master.mask n = decide (2 ≤ n)
  stage : c.master.stage = .ready
  autoEoi : c.master.autoEoi = false

theorem remapped_picRemap (c : PicPair) : Remapped (picRemap c) where
  base := rfl
  mask := by
    have h : ∀ n < 8, (0xFC : BitVec 8).getLsbD n = decide (2 ≤ n) := by decide
    exact h
  stage := rfl
  autoEoi := rfl

/-- No request is left, and nothing in service. -/
theorem picRemap_clear (c : PicPair) (n : ℕ) :
    (picRemap c).master.irr n = false ∧ (picRemap c).master.isr n = false :=
  ⟨rfl, rfl⟩

section

variable {c : PicPair} {n : ℕ}

theorem Remapped.unmasked (h : Remapped c) (hn : n < 8) (hmask : c.master.mask n = false) :
    n < 2 := by
  rw [h.mask n hn] at hmask
  exact Nat.not_le.mp (of_decide_eq_false hmask)

/-- What is delivered is a request of the timer or the keyboard. -/
theorem Remapped.acknowledge (h : Remapped c) {v : ℕ} {c' : PicPair}
    (hv : c.acknowledge = some (v, c')) : ∃ n < 2, v = 32 + n ∧ c.master.irr n = true ∧
      (∀ m < n, c.master.irr m = false) ∧ c' = { c with master := c.master.acknowledge n } := by
  rw [PicPair.acknowledge] at hv
  split at hv
  · cases hv
  · rename_i n hpending
    obtain ⟨h₈, hreq, hmask⟩ := Pic.pending_eq_some hpending
    have hlt := h.unmasked h₈ hmask
    have hirr : ∀ m < 2, c.linked.irr m = c.master.irr m := fun m hm =>
      Function.update_of_ne (Nat.ne_of_lt hm) _ _
    rw [if_neg (Nat.ne_of_lt hlt)] at hv
    obtain ⟨rfl, rfl⟩ := Prod.mk.inj (Option.some.inj hv)
    refine ⟨n, hlt, by rw [h.base], hirr n hlt ▸ hreq, fun m hm => ?_, rfl⟩
    rcases Pic.pending_first hpending hm with hno | hmasked
    · rw [← hirr m (by omega), hno]
    · have hm' : c.master.mask m = false := by
        rw [h.mask m (by omega), decide_eq_false (by omega)]
      exact absurd (hm'.symm.trans hmasked) Bool.false_ne_true

/-- A request is delivered if nothing is in service. -/
theorem Remapped.acknowledge_of_idle (h : Remapped c) (hidle : c.master.Idle) (hn : n < 2)
    (hreq : c.master.irr n = true) : ∃ v c', c.acknowledge = some (v, c') := by
  have hlinked : c.linked.irr n = true := by
    rw [← hreq]
    exact Function.update_of_ne (Nat.ne_of_lt hn) _ _
  have hmask : c.linked.mask n = false := by
    rw [PicPair.linked, h.mask n (by omega), decide_eq_false (by omega)]
  obtain ⟨m, hm⟩ := Pic.pending_of_idle (p := c.linked) hidle (by omega) hlinked hmask
  rw [PicPair.acknowledge, hm]
  dsimp only
  split
  · exact ⟨_, _, rfl⟩
  · exact ⟨_, _, rfl⟩

/-- The end of an interrupt leaves the setup as it is. -/
theorem Remapped.endOfInterrupt (h : Remapped c) : Remapped (c.outb 0x20 0x20) ∧
    (c.outb 0x20 0x20).master.irr = c.master.irr ∧
    (c.outb 0x20 0x20).master = c.master.endOfInterrupt := by
  have hout : (c.outb 0x20 0x20).master = c.master.endOfInterrupt := rfl
  have hsame : c.master.endOfInterrupt.irr = c.master.irr ∧
      c.master.endOfInterrupt.base = c.master.base ∧
      c.master.endOfInterrupt.mask = c.master.mask ∧
      c.master.endOfInterrupt.stage = c.master.stage ∧
      c.master.endOfInterrupt.autoEoi = c.master.autoEoi := by
    rw [Pic.endOfInterrupt]
    split <;> exact ⟨rfl, rfl, rfl, rfl, rfl⟩
  obtain ⟨hirr, hbase, hmask, hstage, hauto⟩ := hsame
  refine ⟨⟨?_, ?_, ?_, ?_⟩, ?_, rfl⟩ <;> rw [hout]
  · rw [hbase, h.base]
  · rw [hmask]
    exact h.mask
  · rw [hstage, h.stage]
  · rw [hauto, h.autoEoi]
  · exact hirr

theorem Remapped.raise (h : Remapped c) (m : ℕ) : Remapped (c.raise m) := by
  rw [PicPair.raise]
  split
  · exact ⟨h.base, h.mask, h.stage, h.autoEoi⟩
  · exact ⟨h.base, h.mask, h.stage, h.autoEoi⟩

end

/-! ### Counting -/

/-- The counters after `t` ticks. -/
def Clock.Counts (k : Clock) (t : ℕ) : Prop :=
  k.systemTick.toNat = t % 100 ∧ k.seconds.toNat = t / 100 % 2 ^ 32

theorem Clock.Counts.tick {k : Clock} {t : ℕ} (h : k.Counts t) : k.tick.Counts (t + 1) := by
  obtain ⟨htick, hseconds⟩ := h
  have hlt := Nat.mod_lt t (show 100 > 0 by decide)
  have hnext : (k.systemTick + 1).toNat = t % 100 + 1 := by
    rw [BitVec.toNat_add, htick]
    exact Nat.mod_eq_of_lt (by simp; omega)
  have hle : 100 ≤ k.systemTick + 1 ↔ 100 ≤ t % 100 + 1 := by
    rw [BitVec.le_def, hnext]
    rfl
  rw [Clock.tick]
  split
  · rename_i hwrap
    have hwrap := hle.mp hwrap
    refine ⟨?_, ?_⟩
    · rw [show (t + 1) % 100 = 0 by omega]
      rfl
    · rw [show (t + 1) / 100 = t / 100 + 1 by omega]
      rw [BitVec.toNat_add, hseconds]
      exact Nat.mod_add_mod _ _ _
  · rename_i hwrap
    have hwrap := mt hle.mpr hwrap
    refine ⟨?_, ?_⟩
    · dsimp only
      rw [hnext]
      omega
    · dsimp only
      rw [hseconds, show (t + 1) / 100 = t / 100 by omega]

theorem outstanding_append (n : ℕ) (es : List BoardEvent) (e : BoardEvent) :
    outstanding n (es ++ [e]) = (e.requests n).getD (outstanding n es) := by
  rw [outstanding, outstanding, List.reverse_append, List.findSome?_append]
  cases h : e.requests n with
  | none => simp [h]
  | some b => simp [h]

theorem ticks_append (es : List BoardEvent) (e : BoardEvent) :
    ticks (es ++ [e]) = ticks es + if e.isTick then 1 else 0 := by
  rw [ticks, List.countP_append, List.countP_singleton]
  rfl

/-! ### The invariant -/

/-- What is in service: only an interrupt that is not acknowledged yet. -/
def InService (p : Pic) : Phase → Prop
  | .serving v => ∃ n < 2, v = 32 + n ∧ p.Serves n
  | .boot | .running | .kernel => p.Idle

theorem InService.congr {p p' : Pic} {phase : Phase} (h : InService p phase)
    (hisr : p'.isr = p.isr) : InService p' phase := by
  cases phase <;> simpa only [InService, Pic.Serves, Pic.Idle, hisr] using h

/-- Between two events, after the events `es`. -/
structure Steady (es : List BoardEvent) (b : Board) : Prop where
  remapped : Remapped b.pics
  service : InService b.pics.master b.phase
  requests : ∀ n < 2, b.pics.master.irr n = outstanding n es
  clock : b.clock.Counts (ticks es)

section

variable {es : List BoardEvent} {b b' : Board}

/-- `timer_handler`, which ends the interrupt it serves, if any. -/
theorem Steady.timerHandler (h : Steady es b) {e : BoardEvent} (hticks : e.isTick = true)
    (hrequests : ∀ n, e.requests n = none)
    (hidle : (b.pics.master.endOfInterrupt).Idle) :
    Steady (es ++ [e]) ⟨(timerHandler b.pics b.clock).1, (timerHandler b.pics b.clock).2,
      .kernel⟩ := by
  obtain ⟨hremapped, hirr, hmaster⟩ := h.remapped.endOfInterrupt
  refine ⟨hremapped, hmaster ▸ hidle, fun n hn => ?_, ?_⟩
  · rw [outstanding_append, hrequests]
    exact (congrFun hirr n).trans (h.requests n hn)
  · rw [ticks_append, hticks]
    exact h.clock.tick

/-- The end of the interrupt that is served. -/
theorem Steady.served (h : Steady es b) {v : ℕ} (hphase : b.phase = .serving v) :
    b.pics.master.endOfInterrupt.Idle := by
  have hserves : InService b.pics.master (.serving v) := hphase ▸ h.service
  obtain ⟨n, hn, -, hserves⟩ := hserves
  exact hserves.endOfInterrupt (by omega)

theorem Steady.step (h : Steady es b) {e : BoardEvent} (hstep : BoardStep b e b') :
    Steady (es ++ [e]) b' := by
  have hsame : ∀ {e : BoardEvent}, e.isTick = false → b.clock.Counts (ticks (es ++ [e])) := by
    intro e he
    rw [ticks_append, he]
    exact h.clock
  have hquiet : ∀ {e : BoardEvent}, (∀ n, e.requests n = none) →
      ∀ n < 2, b.pics.master.irr n = outstanding n (es ++ [e]) := by
    intro e he n hn
    rw [outstanding_append, he]
    exact h.requests n hn
  cases hstep with
  | raise n =>
      refine ⟨h.remapped.raise n, ?_, fun m hm => ?_, hsame rfl⟩
      · refine h.service.congr ?_
        dsimp only
        rw [PicPair.raise]
        split <;> rfl
      · have hold := h.requests m hm
        rw [outstanding_append, ← hold]
        dsimp only
        rw [PicPair.raise, BoardEvent.requests]
        by_cases e : n = m
        · subst e
          rw [if_pos (by omega), if_pos rfl]
          exact Function.update_self _ _ _
        · rw [if_neg e]
          split
          · exact Function.update_of_ne (Ne.symm e) _ _
          · rfl
  | sti hphase =>
      have hidle : InService b.pics.master .boot := hphase ▸ h.service
      exact ⟨h.remapped, hidle, hquiet fun _ => rfl, hsame rfl⟩
  | deliver hphase hv =>
      obtain ⟨n, hn, rfl, -, -, rfl⟩ := h.remapped.acknowledge hv
      have hidle : InService b.pics.master .running := hphase ▸ h.service
      refine ⟨⟨h.remapped.base, h.remapped.mask, h.remapped.stage, h.remapped.autoEoi⟩,
        ⟨n, hn, rfl, Pic.Idle.acknowledge hidle h.remapped.autoEoi n⟩, fun m hm => ?_, hsame rfl⟩
      rw [outstanding_append, BoardEvent.requests, ← h.requests m hm]
      by_cases e : n = m
      · subst e
        rw [if_pos rfl]
        exact Function.update_self _ _ _
      · rw [if_neg (by omega)]
        exact Function.update_of_ne (Ne.symm e) _ _
  | timer hphase => exact h.timerHandler rfl (fun _ => rfl) (h.served hphase)
  | keyboard hphase =>
      obtain ⟨hremapped, hirr, hmaster⟩ := h.remapped.endOfInterrupt
      refine ⟨hremapped, ?_, fun n hn => ?_, hsame rfl⟩
      · show (b.pics.outb 0x20 0x20).master.Idle
        rw [hmaster]
        exact h.served hphase
      · rw [hirr]
        exact hquiet (fun _ => rfl) n hn
  | syscall hphase =>
      have hidle : InService b.pics.master .running := hphase ▸ h.service
      exact ⟨h.remapped, hidle, hquiet fun _ => rfl, hsame rfl⟩
  | exit hphase =>
      have hidle : InService b.pics.master .kernel := hphase ▸ h.service
      refine h.timerHandler rfl (fun _ => rfl) ?_
      rw [Pic.endOfInterrupt_of_idle hidle]
      exact hidle
  | iret hphase =>
      have hidle : InService b.pics.master .kernel := hphase ▸ h.service
      exact ⟨h.remapped, hidle, hquiet fun _ => rfl, hsame rfl⟩

end

/-! ### Interrupts -/

/-- What holds of a board after the events `es`. -/
structure Serviced (es : List BoardEvent) (b : Board) : Prop where
  /-- What interrupts is a request of the timer or the keyboard that was not delivered before, and
  has a stub. -/
  once : ∀ v b', BoardStep b (.deliver v) b' → outstanding (v - 32) es = true ∧
    (v = 32 ∨ v = 33) ∧ ∀ M, ∀ S : Symbols M, (S.stub v).isSome
  /-- A request is delivered when interrupts are enabled, after that of the timer at most. -/
  enabled : b.phase = .running → ∀ n < 2, outstanding n es = true →
    ∃ v b', BoardStep b (.deliver v) b' ∧ v ≤ 32 + n
  /-- Nothing is left in service. -/
  acknowledged : b.phase = .running → b.pics.master.Idle
  clock : b.clock.systemTick.toNat = ticks es % 100 ∧
    b.clock.seconds.toNat = ticks es / 100 % 2 ^ 32

theorem Steady.serviced {es : List BoardEvent} {b : Board} (h : Steady es b) : Serviced es b where
  once v b' hstep := by
    cases hstep with
    | deliver hphase hv =>
        obtain ⟨n, hn, rfl, hreq, -, -⟩ := h.remapped.acknowledge hv
        rw [Nat.add_sub_cancel_left, ← h.requests n hn]
        refine ⟨hreq, by omega, fun M S => ?_⟩
        obtain rfl | rfl : n = 0 ∨ n = 1 := by omega
        exacts [rfl, rfl]
  enabled hphase n hn hreq := by
    have hidle : InService b.pics.master .running := hphase ▸ h.service
    rw [← h.requests n hn] at hreq
    obtain ⟨v, c', hv⟩ := h.remapped.acknowledge_of_idle hidle hn hreq
    obtain ⟨m, -, rfl, -, hfirst, -⟩ := h.remapped.acknowledge hv
    refine ⟨_, _, .deliver hphase hv, Nat.add_le_add_left (Nat.not_lt.mp fun hlt => ?_) 32⟩
    exact Bool.false_ne_true ((hfirst n hlt).symm.trans hreq)
  acknowledged hphase := by
    have hidle : InService b.pics.master .running := hphase ▸ h.service
    exact hidle
  clock := h.clock

/-- **Interrupts are serviced.**  Whatever state the controllers were in before `pic_remap`, after
any run of requests, interrupts and system calls. -/
theorem interrupts_serviced (c : PicPair) (es : List BoardEvent) (b : Board)
    (h : Run BoardStep ⟨picRemap c, ⟨0, 0⟩, .boot⟩ es b) : Serviced es b := by
  have hinit : Steady [] ⟨picRemap c, ⟨0, 0⟩, .boot⟩ :=
    ⟨remapped_picRemap c, fun n _ => (picRemap_clear c n).2, fun n _ => (picRemap_clear c n).1,
      rfl, rfl⟩
  have hsteady : Steady es b := h.inv_history (I := Steady) (fun hs hstep => hs.step hstep) hinit
  exact hsteady.serviced

/-- Two requests before interrupts are enabled: the timer first, and after its tick the keyboard. -/
theorem interrupts_serviced_two : ∃ c es b, Run BoardStep ⟨picRemap c, ⟨0, 0⟩, .boot⟩ es b ∧
    ticks es = 1 ∧ b.clock.systemTick.toNat = 1 ∧ b.pics.master.Idle ∧
      ∃ v b', BoardStep b (.deliver v) b' ∧ v ≤ 33 := by
  -- as a boot loader may leave them, with interrupts in service
  let pic : Pic := ⟨fun _ => true, fun _ => true, fun _ => false, 8, 4, false, false, true, .ready⟩
  let raised := ((picRemap ⟨pic, pic⟩).raise 0).raise 1
  let taken : PicPair := { raised with master := raised.master.acknowledge 0 }
  have htaken : raised.acknowledge = some (32, taken) := rfl
  have hrun : Run BoardStep ⟨picRemap ⟨pic, pic⟩, ⟨0, 0⟩, .boot⟩
      [.raise 0, .raise 1, .sti, .deliver 32, .timer, .iret]
      ⟨(timerHandler taken ⟨0, 0⟩).1, (timerHandler taken ⟨0, 0⟩).2, .running⟩ :=
    .more (.raise _ 0) (.more (.raise _ 1) (.more (.sti rfl) (.more (.deliver rfl htaken)
      (.more (.timer rfl) (.one (.iret rfl))))))
  have hserviced := interrupts_serviced _ _ _ hrun
  exact ⟨_, _, _, hrun, rfl, hserviced.clock.1, hserviced.acknowledged rfl,
    hserviced.enabled rfl 1 (by decide) rfl⟩

end ZeptoOS.Core
