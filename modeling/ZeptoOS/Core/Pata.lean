import Mathlib.Tactic.IntervalCases
import ZeptoOS.Fs.Ext2
import ZeptoOS.Lib.Ata
import ZeptoOS.Lib.Fuel
import ZeptoOS.Lib.Run

/-!
# Core — Pata

`kernel/core/pata.c`: sectors read and written through the ports of an ATA drive.  A buffer is the
bytes from `buf` on.  Every wait on the status takes fuel, and reads it at most so often.

A request that returns changes the disk as in the model of the file system (`requests_at`).  Of the
address 28 bits are sent, and ERR is never looked at: a request for sectors that the drive does not
have goes to others, or waits for ever (`requestLaw_iff`).
-/

namespace ZeptoOS.Core
open Lib
open Fs (Byte Disk)

def ataPrimarySecCount : ℕ := 0x1F2
def ataPrimaryLbaLow : ℕ := 0x1F3
def ataPrimaryLbaMid : ℕ := 0x1F4
def ataPrimaryLbaHigh : ℕ := 0x1F5
def ataPrimaryDevice : ℕ := 0x1F6
def ataPrimaryCommand : ℕ := 0x1F7
def ataCmdReadPio : Byte := 0x20
def ataCmdWritePio : Byte := 0x30
def ataStatusBsy : Byte := 0x80
def ataStatusDrq : Byte := 0x08

/-- `pata_wait_bsy` -/
def pataWaitBsy : ℕ → Drive → Option Drive
  | 0, _ => none
  | fuel + 1, d =>
      let (status, d) := d.inbStatus
      if status &&& ataStatusBsy ≠ 0 then pataWaitBsy fuel d else some d

/-- `pata_wait_drq` -/
def pataWaitDrq : ℕ → Drive → Option Drive
  | 0, _ => none
  | fuel + 1, d =>
      let (status, d) := d.inbStatus
      if status &&& ataStatusDrq = 0 then pataWaitDrq fuel d else some d

/-- The registers that both functions set, with the command. -/
def pataCommand (lba : BitVec 32) (sectorCount command : Byte) (d : Drive) : Drive :=
  let d := d.outb ataPrimaryDevice ((0xE0 ||| ((lba >>> 24) &&& 0x0F)).setWidth 8)
  let d := d.outb ataPrimarySecCount sectorCount
  let d := d.outb ataPrimaryLbaLow (lba.setWidth 8)
  let d := d.outb ataPrimaryLbaMid ((lba >>> 8).setWidth 8)
  let d := d.outb ataPrimaryLbaHigh ((lba >>> 16).setWidth 8)
  d.outb ataPrimaryCommand command

/-- The first words of sector `s` of the buffer, read. -/
def readWords (s : ℕ) : ℕ → Drive → (ℕ → Byte) → Drive × (ℕ → Byte)
  | 0, d, buf => (d, buf)
  | i + 1, d, buf =>
      let (d, buf) := readWords s i d buf
      let (data, d) := d.inw
      let buf := Function.update buf (s * 512 + i * 2) ((data &&& 0xFF).setWidth 8)
      (d, Function.update buf (s * 512 + i * 2 + 1) ((data >>> 8).setWidth 8))

/-- The first words of sector `s` of the buffer, written. -/
def writeWords (buf : ℕ → Byte) (s : ℕ) : ℕ → Drive → Drive
  | 0, d => d
  | i + 1, d =>
      (writeWords buf s i d).outw
        ((buf (s * 512 + i * 2)).setWidth 16 ||| (buf (s * 512 + i * 2 + 1)).setWidth 16 <<< 8)

/-- The first sectors of a request, read. -/
def readLoop (fuel : ℕ) : ℕ → Drive → (ℕ → Byte) → Option (Drive × (ℕ → Byte))
  | 0, d, buf => some (d, buf)
  | s + 1, d, buf => do
      let (d, buf) ← readLoop fuel s d buf
      let d ← pataWaitBsy fuel d
      let d ← pataWaitDrq fuel d
      some (readWords s 256 d buf)

/-- The first sectors of a request, written. -/
def writeLoop (fuel : ℕ) (buf : ℕ → Byte) : ℕ → Drive → Option Drive
  | 0, d => some d
  | s + 1, d => do
      let d ← writeLoop fuel buf s d
      let d ← pataWaitBsy fuel d
      let d ← pataWaitDrq fuel d
      some (writeWords buf s 256 d)

/-- `pata_read_sectors` -/
def pataReadSectors (fuel : ℕ) (d : Drive) (lba : BitVec 32) (sectorCount : Byte)
    (buf : ℕ → Byte) : Option (ℤ × Drive × (ℕ → Byte)) := do
  let d ← pataWaitBsy fuel d
  let d := pataCommand lba sectorCount ataCmdReadPio d
  let (d, buf) ← readLoop fuel sectorCount.toNat d buf
  some (0, d, buf)

/-- `pata_write_sectors` -/
def pataWriteSectors (fuel : ℕ) (d : Drive) (lba : BitVec 32) (sectorCount : Byte)
    (buf : ℕ → Byte) : Option (ℤ × Drive) := do
  let d ← pataWaitBsy fuel d
  let d := pataCommand lba sectorCount ataCmdWritePio d
  let d ← writeLoop fuel buf sectorCount.toNat d
  let d ← pataWaitBsy fuel d
  some (0, d)

/-! ### Waits -/

section

variable {d : Drive} {disk : Disk} {capacity : ℕ} {transfer : Option Transfer}

theorem pataWaitBsy_succ (fuel : ℕ) (d : Drive) :
    pataWaitBsy (fuel + 1) d =
      if 0 < d.busy then pataWaitBsy fuel { d with busy := d.busy - 1 }
      else some { d with busy := 0 } := by
  rw [pataWaitBsy, Drive.inbStatus]
  dsimp only
  by_cases hbusy : 0 < d.busy
  · rw [if_pos hbusy]
    exact if_pos (d.status_bsy.mpr hbusy)
  · rw [if_neg hbusy]
    refine (if_neg (d.status_bsy.not.mpr hbusy)).trans ?_
    rw [Nat.eq_zero_of_not_pos hbusy]

theorem pataWaitBsy_returns (d : Drive) :
    Returns (fun fuel => pataWaitBsy fuel d) { d with busy := 0 } := by
  generalize hn : d.busy = n
  induction n generalizing d with
  | zero =>
      refine Returns.stop fun fuel => ?_
      rw [pataWaitBsy_succ, if_neg (by omega)]
  | succ n ih =>
      have hrest := ih { d with busy := d.busy - 1 } (by dsimp only; omega)
      refine hrest.skip fun fuel => ?_
      rw [pataWaitBsy_succ, if_pos (by omega)]

/-- A wait that ends leaves the drive as it was, not busy. -/
theorem pataWaitBsy_some {fuel : ℕ} {d' : Drive} (h : pataWaitBsy fuel d = some d') :
    d' = { d with busy := 0 } := by
  induction fuel generalizing d with
  | zero => cases h
  | succ fuel ih =>
      rw [pataWaitBsy_succ] at h
      split at h
      · have hrest := ih h
        exact hrest
      · exact (Option.some.inj h).symm

theorem pataWaitDrq_returns {t : Transfer} (h : d.Moving disk capacity t) :
    Returns (fun fuel => pataWaitDrq fuel d) d := by
  have hbusy := h.not_busy
  have hdrq : ¬ d.status &&& ataStatusDrq = 0 := by
    intro hzero
    rcases d.status_drq.mp hzero with hlt | hnone
    · exact Nat.lt_irrefl 0 (hbusy ▸ hlt)
    · exact Option.some_ne_none t (h.transfer_eq.symm.trans hnone)
  have hrest : { d with busy := d.busy - 1 } = d := by
    rw [hbusy]
    cases d
    cases hbusy
    rfl
  refine Returns.stop fun fuel => ?_
  rw [pataWaitDrq, Drive.inbStatus]
  dsimp only
  rw [if_neg hdrq, hrest]

/-- With no data to move the wait does not end. -/
theorem pataWaitDrq_none (ht : d.transfer = none) (fuel : ℕ) : pataWaitDrq fuel d = none := by
  induction fuel generalizing d with
  | zero => rfl
  | succ fuel ih =>
      have hrest : pataWaitDrq fuel { d with busy := d.busy - 1 } = none := ih ht
      rw [pataWaitDrq, Drive.inbStatus]
      exact (if_pos (d.status_drq.mpr (.inr ht))).trans hrest

/-- With no data to move the waits before a sector do not end. -/
theorem waits_none {A : Type*} (ht : d.transfer = none) (fuel : ℕ) (words : Drive → Option A) :
    ((pataWaitBsy fuel d).bind fun d => (pataWaitDrq fuel d).bind words) = none := by
  cases hwait : pataWaitBsy fuel d with
  | none => rfl
  | some d' =>
      have hd' : d'.transfer = none := by rw [pataWaitBsy_some hwait, ht]
      rw [Option.bind_some, pataWaitDrq_none hd' fuel]
      rfl

end

/-! ### The command -/

section

variable {d : Drive} {lba : BitVec 32} {sectorCount : Byte}

theorem device_low (lba : BitVec 32) :
    (((0xE0 : BitVec 32) ||| ((lba >>> 24) &&& 0x0F)).setWidth 8).setWidth 4 =
      (lba >>> 24).setWidth 4 := by
  have hmask : (0x0F : BitVec 32).setWidth 4 = BitVec.allOnes 4 := rfl
  have hselect : (0xE0 : BitVec 32).setWidth 4 = 0 := rfl
  rw [BitVec.setWidth_setWidth_of_le _ (by decide), BitVec.setWidth_or, BitVec.setWidth_and,
    hmask, hselect, BitVec.and_allOnes]
  exact BitVec.zero_or

/-- The drive is selected, by LBA. -/
theorem device_select (lba : BitVec 32) :
    (((0xE0 : BitVec 32) ||| ((lba >>> 24) &&& 0x0F)).setWidth 8) &&& 0x50 = 0x40 := by
  ext i hi
  simp
  interval_cases i <;> simp

/-- The drive with its registers set. -/
def requested (d : Drive) (lba : BitVec 32) (sectorCount : Byte) : Drive :=
  { d with
    device := (0xE0 ||| ((lba >>> 24) &&& 0x0F)).setWidth 8
    secCount := sectorCount
    lbaLow := lba.setWidth 8
    lbaMid := (lba >>> 8).setWidth 8
    lbaHigh := (lba >>> 16).setWidth 8 }

theorem pataCommand_eq (hbusy : d.busy = 0) (ht : d.transfer = none) (command : Byte) :
    pataCommand lba sectorCount command d = (requested d lba sectorCount).start command := by
  simp [pataCommand, Drive.outb, requested, hbusy, ht, ataPrimaryDevice, ataPrimarySecCount,
    ataPrimaryLbaLow, ataPrimaryLbaMid, ataPrimaryLbaHigh, ataPrimaryCommand]

/-- The registers hold the low 28 bits of the address. -/
theorem requested_lba (d : Drive) (lba : BitVec 32) (sectorCount : Byte) :
    (requested d lba sectorCount).lba = lba.setWidth 28 := by
  have hdevice : (requested d lba sectorCount).device.setWidth 4 = (lba >>> 24).setWidth 4 :=
    device_low lba
  ext i hi
  rw [← BitVec.getLsbD_eq_getElem, Drive.getLsbD_lba, hdevice]
  simp [requested]
  grind

theorem requested_addresses (hcount : sectorCount ≠ 0) :
    (requested d lba sectorCount).Addresses ↔
      lba.toNat % 2 ^ 28 + sectorCount.toNat ≤ d.capacity := by
  have hsectors : (requested d lba sectorCount).sectors = sectorCount.toNat := if_neg hcount
  rw [Drive.Addresses, requested_lba, hsectors, BitVec.toNat_setWidth]
  exact and_iff_right (device_select lba)

end

/-! ### Words -/

theorem low_pack (lo hi : Byte) :
    (lo.setWidth 16 ||| hi.setWidth 16 <<< 8).extractLsb' 0 8 = lo := by
  ext i h
  simp [h]
  intro _
  omega

theorem high_pack (lo hi : Byte) :
    (lo.setWidth 16 ||| hi.setWidth 16 <<< 8).extractLsb' 8 8 = hi := by
  ext i h
  have hlt : 8 + i < 16 := Nat.add_lt_add_left h 8
  simp [h, hlt]

section

variable {d : Drive} {disk : Disk} {capacity sector left : ℕ}

/-- Word `n` of a sector of the buffer, behind the ones before it. -/
theorem overwrite_word (mem f : ℕ → Byte) (p n : ℕ) {g : ℕ → Byte} (hlow : g 0 = f (2 * n))
    (hhigh : g 1 = f (2 * n + 1)) :
    overwrite (overwrite mem p (2 * n) f) (p + 2 * n) 2 g = overwrite mem p (2 * (n + 1)) f := by
  have hg : ∀ i < 2, g i = f (2 * n + i) := by
    intro i hi
    interval_cases i
    · exact hlow
    · exact hhigh
  rw [overwrite_congr hg, overwrite_append, Nat.mul_succ]

theorem writeWords_word (buf : ℕ → Byte) (s : ℕ) {n : ℕ}
    (h : (writeWords buf s n d).Moving
      (overwrite disk (512 * sector) (2 * n) fun i => buf (512 * s + i)) capacity
      ⟨.writeSectors, sector, left, n⟩) :
    ∃ d' : Drive, d'.Moving
      (overwrite disk (512 * sector) (2 * (n + 1)) fun i => buf (512 * s + i)) capacity
      ⟨.writeSectors, sector, left, n⟩ ∧
      writeWords buf s (n + 1) d = d'.advance ⟨.writeSectors, sector, left, n⟩ := by
  obtain ⟨d', hd', hout⟩ := h.outw rfl
    ((buf (s * 512 + n * 2)).setWidth 16 ||| (buf (s * 512 + n * 2 + 1)).setWidth 16 <<< 8)
  refine ⟨d', ?_, hout⟩
  rwa [Drive.wordStart, overwrite_word] at hd'
  · rw [Nat.mul_zero, low_pack, Nat.mul_comm s, Nat.mul_comm n]
  · rw [Nat.mul_one, high_pack, Nat.mul_comm s, Nat.mul_comm n, Nat.add_assoc]

/-- The words of a sector but the last, written. -/
theorem writeWords_moving (buf : ℕ → Byte) (s : ℕ)
    (h : d.Moving disk capacity ⟨.writeSectors, sector, left, 0⟩) {n : ℕ} (hn : n < 256) :
    (writeWords buf s n d).Moving
      (overwrite disk (512 * sector) (2 * n) fun i => buf (512 * s + i)) capacity
      ⟨.writeSectors, sector, left, n⟩ := by
  induction n with
  | zero =>
      rw [Nat.mul_zero, overwrite_zero]
      exact h
  | succ n ih =>
      obtain ⟨d', hd', hout⟩ := writeWords_word buf s (ih (Nat.lt_of_succ_lt hn))
      rw [hout]
      exact hd'.advance_word hn

/-- A sector written. -/
theorem writeWords_sector (buf : ℕ → Byte) (s : ℕ)
    (h : d.Moving disk capacity ⟨.writeSectors, sector, left, 0⟩) :
    (writeWords buf s 256 d).At
      (overwrite disk (512 * sector) 512 fun i => buf (512 * s + i)) capacity
      (Drive.nextSector ⟨.writeSectors, sector, left, 255⟩) := by
  have hlast := writeWords_moving buf s h (n := 255) (by decide)
  obtain ⟨d', hd', hout⟩ := writeWords_word buf s hlast
  rw [hout]
  exact hd'.advance_sector (Nat.lt_irrefl 256)

theorem readWords_word (buf : ℕ → Byte) (s : ℕ) {n : ℕ}
    (h : (readWords s n d buf).1.Moving disk capacity ⟨.readSectors, sector, left, n⟩)
    (hbuf : (readWords s n d buf).2 =
      overwrite buf (512 * s) (2 * n) fun i => disk (512 * sector + i)) :
    readWords s (n + 1) d buf =
      ((readWords s n d buf).1.advance ⟨.readSectors, sector, left, n⟩,
        overwrite buf (512 * s) (2 * (n + 1)) fun i => disk (512 * sector + i)) := by
  have hword := overwrite_word buf (fun i => disk (512 * sector + i)) (512 * s) n
    (g := fun i => disk (512 * sector + 2 * n + i)) rfl rfl
  rw [readWords]
  dsimp only
  rw [h.inw rfl, hbuf, ← hword, overwrite_two, Drive.wordAt_low, Drive.wordAt_high,
    Nat.mul_comm s, Nat.mul_comm n]
  rfl

/-- The words of a sector but the last, read. -/
theorem readWords_moving (buf : ℕ → Byte) (s : ℕ)
    (h : d.Moving disk capacity ⟨.readSectors, sector, left, 0⟩) {n : ℕ} (hn : n < 256) :
    (readWords s n d buf).1.Moving disk capacity ⟨.readSectors, sector, left, n⟩ ∧
      (readWords s n d buf).2 =
        overwrite buf (512 * s) (2 * n) fun i => disk (512 * sector + i) := by
  induction n with
  | zero =>
      rw [Nat.mul_zero, overwrite_zero]
      exact ⟨h, rfl⟩
  | succ n ih =>
      obtain ⟨hd, hbuf⟩ := ih (Nat.lt_of_succ_lt hn)
      rw [readWords_word buf s hd hbuf]
      exact ⟨hd.advance_word hn, rfl⟩

/-- A sector read. -/
theorem readWords_sector (buf : ℕ → Byte) (s : ℕ)
    (h : d.Moving disk capacity ⟨.readSectors, sector, left, 0⟩) :
    (readWords s 256 d buf).1.At disk capacity
        (Drive.nextSector ⟨.readSectors, sector, left, 255⟩) ∧
      (readWords s 256 d buf).2 =
        overwrite buf (512 * s) 512 fun i => disk (512 * sector + i) := by
  obtain ⟨hd, hbuf⟩ := readWords_moving buf s h (n := 255) (by decide)
  rw [readWords_word buf s hd hbuf]
  exact ⟨hd.advance_sector (Nat.lt_irrefl 256), rfl⟩

end

/-! ### Sectors -/

section

variable {d : Drive} {disk : Disk} {capacity first count : ℕ}

/-- The first sectors of a request, written. -/
theorem writeLoop_returns (buf : ℕ → Byte)
    (h : d.At disk capacity (Drive.remaining .writeSectors first count 0)) {s : ℕ}
    (hs : s ≤ count) :
    ∃ d', Returns (fun fuel => writeLoop fuel buf s d) d' ∧
      d'.At (overwrite disk (512 * first) (512 * s) buf) capacity
        (Drive.remaining .writeSectors first count s) := by
  induction s with
  | zero =>
      refine ⟨d, Returns.pure d, ?_⟩
      rw [Nat.mul_zero, overwrite_zero]
      exact h
  | succ s ih =>
      have hlt : s < count := hs
      obtain ⟨d₁, hloop, hd₁⟩ := ih (Nat.le_of_lt hlt)
      rw [Drive.remaining, if_pos hlt] at hd₁
      have hsector := writeWords_sector buf s hd₁.moving
      rw [Drive.nextSector_remaining _ _ _ hlt, Nat.mul_add, overwrite_append] at hsector
      refine ⟨_, ?_, hsector⟩
      exact hloop.bind ((pataWaitBsy_returns d₁).bind
        ((pataWaitDrq_returns hd₁.moving).bind (Returns.pure _)))

/-- The first sectors of a request, read. -/
theorem readLoop_returns (buf : ℕ → Byte)
    (h : d.At disk capacity (Drive.remaining .readSectors first count 0)) {s : ℕ}
    (hs : s ≤ count) :
    ∃ d', Returns (fun fuel => readLoop fuel s d buf)
        (d', overwrite buf 0 (512 * s) fun i => disk (512 * first + i)) ∧
      d'.At disk capacity (Drive.remaining .readSectors first count s) := by
  induction s with
  | zero =>
      refine ⟨d, ?_, h⟩
      rw [Nat.mul_zero, overwrite_zero]
      exact Returns.pure _
  | succ s ih =>
      have hlt : s < count := hs
      obtain ⟨d₁, hloop, hd₁⟩ := ih (Nat.le_of_lt hlt)
      rw [Drive.remaining, if_pos hlt] at hd₁
      obtain ⟨hsector, hbuf⟩ := readWords_sector
        (overwrite buf 0 (512 * s) fun i => disk (512 * first + i)) s hd₁.moving
      rw [Drive.nextSector_remaining _ _ _ hlt] at hsector
      have hbytes := overwrite_append buf (fun i => disk (512 * first + i)) 0 (512 * s) 512
      rw [Nat.zero_add] at hbytes
      simp only [Nat.mul_add, Nat.add_assoc] at hbuf
      refine ⟨_, ?_, hsector⟩
      rw [Nat.mul_succ, ← hbytes, ← hbuf, Prod.mk.eta]
      exact hloop.bind ((pataWaitBsy_returns d₁).bind
        ((pataWaitDrq_returns hd₁.moving).bind (Returns.pure _)))

/-- The loops do not end when there is no data to move. -/
theorem writeLoop_none (ht : d.transfer = none) (fuel : ℕ) (buf : ℕ → Byte) {s : ℕ} (hs : s ≠ 0) :
    writeLoop fuel buf s d = none := by
  induction s with
  | zero => exact absurd rfl hs
  | succ s ih =>
      rw [writeLoop]
      by_cases hzero : s = 0
      · subst hzero
        exact waits_none ht fuel _
      · rw [ih hzero]
        rfl

theorem readLoop_none (ht : d.transfer = none) (fuel : ℕ) (buf : ℕ → Byte) {s : ℕ} (hs : s ≠ 0) :
    readLoop fuel s d buf = none := by
  induction s with
  | zero => exact absurd rfl hs
  | succ s ih =>
      rw [readLoop]
      by_cases hzero : s = 0
      · subst hzero
        exact waits_none ht fuel _
      · rw [ih hzero]
        rfl

end

/-! ### Requests -/

section

variable {d : Drive} {lba : BitVec 32} {sectorCount : Byte}

/-- `pata_write_sectors` returns `r`, and leaves the drive `d'`. -/
def WriteReturns (d : Drive) (lba : BitVec 32) (sectorCount : Byte) (buf : ℕ → Byte) (r : ℤ)
    (d' : Drive) : Prop :=
  Returns (fun fuel => pataWriteSectors fuel d lba sectorCount buf) (r, d')

/-- `pata_read_sectors` returns `r`, and leaves the drive `d'` and the buffer `out`. -/
def ReadReturns (d : Drive) (lba : BitVec 32) (sectorCount : Byte) (buf : ℕ → Byte) (r : ℤ)
    (d' : Drive) (out : ℕ → Byte) : Prop :=
  Returns (fun fuel => pataReadSectors fuel d lba sectorCount buf) (r, d', out)

theorem toNat_ne_zero (hcount : sectorCount ≠ 0) : sectorCount.toNat ≠ 0 :=
  fun h => hcount (BitVec.eq_of_toNat_eq h)

/-- The drive takes a command for sectors that it has. -/
theorem pataCommand_at {command : Byte} {transfer : AtaCommand}
    (hcommand : AtaCommand.decode command = some transfer) (hbusy : d.busy = 0)
    (ht : d.transfer = none) (hcount : sectorCount ≠ 0)
    (hfits : lba.toNat % 2 ^ 28 + sectorCount.toNat ≤ d.capacity) :
    (pataCommand lba sectorCount command d).At d.disk d.capacity
      (Drive.remaining transfer (lba.toNat % 2 ^ 28) sectorCount.toNat 0) := by
  have hpos : 0 < sectorCount.toNat := Nat.pos_of_ne_zero (toNat_ne_zero hcount)
  have hsectors : (requested d lba sectorCount).sectors = sectorCount.toNat := if_neg hcount
  have hstart := Drive.start_addressed hcommand ((requested_addresses (d := d) hcount).mpr hfits)
  rw [requested_lba, hsectors, BitVec.toNat_setWidth] at hstart
  rw [pataCommand_eq hbusy ht, Drive.remaining, if_pos hpos]
  exact hstart

/-- It refuses one for others, and has nothing to move. -/
theorem pataCommand_refused {fuel : ℕ} {d₁ : Drive} (hwait : pataWaitBsy fuel d = some d₁)
    (ht : d.transfer = none) (hcount : sectorCount ≠ 0)
    (hfits : ¬ lba.toNat % 2 ^ 28 + sectorCount.toNat ≤ d.capacity) (command : Byte) :
    (pataCommand lba sectorCount command d₁).transfer = none := by
  have hd₁ := pataWaitBsy_some hwait
  subst hd₁
  rw [pataCommand_eq (d := { d with busy := 0 }) rfl ht]
  exact (Drive.start_refused command ((requested_addresses hcount).not.mpr hfits) ht).transfer_eq

/-- **A write.**  It changes the sectors that the low 28 bits of `lba` address. -/
theorem pataWriteSectors_returns (ht : d.transfer = none) (hcount : sectorCount ≠ 0)
    (hfits : lba.toNat % 2 ^ 28 + sectorCount.toNat ≤ d.capacity) (buf : ℕ → Byte) :
    ∃ d', WriteReturns d lba sectorCount buf 0 d' ∧
      d'.At (Fs.pataWriteSectors d.disk lba.toNat sectorCount.toNat buf) d.capacity none := by
  have hcommand : AtaCommand.decode ataCmdWritePio = some .writeSectors := rfl
  have hstart := pataCommand_at (d := { d with busy := 0 }) hcommand rfl ht hcount hfits
  obtain ⟨d₁, hloop, hd₁⟩ := writeLoop_returns buf hstart (Nat.le_refl _)
  rw [Drive.remaining, if_neg (Nat.lt_irrefl _)] at hd₁
  refine ⟨{ d₁ with busy := 0 }, ?_, hd₁.waited⟩
  exact (pataWaitBsy_returns d).bind
    (hloop.bind ((pataWaitBsy_returns d₁).bind (Returns.pure _)))

theorem pataReadSectors_eq (disk : Disk) (lba count : ℕ) (buf : ℕ → Byte) :
    Fs.pataReadSectors disk lba count buf =
      overwrite buf 0 (512 * count) fun i => disk (Fs.sectorStart lba + i) := by
  ext i
  simp [Fs.pataReadSectors, overwrite]

/-- **A read.** -/
theorem pataReadSectors_returns (ht : d.transfer = none) (hcount : sectorCount ≠ 0)
    (hfits : lba.toNat % 2 ^ 28 + sectorCount.toNat ≤ d.capacity) (buf : ℕ → Byte) :
    ∃ d', ReadReturns d lba sectorCount buf 0 d'
        (Fs.pataReadSectors d.disk lba.toNat sectorCount.toNat buf) ∧
      d'.At d.disk d.capacity none := by
  have hcommand : AtaCommand.decode ataCmdReadPio = some .readSectors := rfl
  have hstart := pataCommand_at (d := { d with busy := 0 }) hcommand rfl ht hcount hfits
  obtain ⟨d₁, hloop, hd₁⟩ := readLoop_returns buf hstart (Nat.le_refl _)
  rw [Drive.remaining, if_neg (Nat.lt_irrefl _)] at hd₁
  refine ⟨d₁, ?_, hd₁⟩
  rw [pataReadSectors_eq]
  exact (pataWaitBsy_returns d).bind (hloop.bind (Returns.pure _))

/-- A request for sectors that the drive does not have leaves the driver waiting. -/
theorem pataWriteSectors_none (ht : d.transfer = none) (hcount : sectorCount ≠ 0)
    (hfits : ¬ lba.toNat % 2 ^ 28 + sectorCount.toNat ≤ d.capacity) (buf : ℕ → Byte) (fuel : ℕ) :
    pataWriteSectors fuel d lba sectorCount buf = none := by
  rw [pataWriteSectors]
  cases hwait : pataWaitBsy fuel d with
  | none => rfl
  | some d₁ =>
      have hrefused := pataCommand_refused hwait ht hcount hfits ataCmdWritePio
      dsimp only [Option.bind_eq_bind, Option.bind_some]
      rw [writeLoop_none hrefused fuel buf (toNat_ne_zero hcount)]
      rfl

theorem pataReadSectors_none (ht : d.transfer = none) (hcount : sectorCount ≠ 0)
    (hfits : ¬ lba.toNat % 2 ^ 28 + sectorCount.toNat ≤ d.capacity) (buf : ℕ → Byte) (fuel : ℕ) :
    pataReadSectors fuel d lba sectorCount buf = none := by
  rw [pataReadSectors]
  cases hwait : pataWaitBsy fuel d with
  | none => rfl
  | some d₁ =>
      have hrefused := pataCommand_refused hwait ht hcount hfits ataCmdReadPio
      dsimp only [Option.bind_eq_bind, Option.bind_some]
      rw [readLoop_none hrefused fuel buf (toNat_ne_zero hcount)]
      rfl

/-- What a write that returns has done. -/
theorem WriteReturns.at {buf : ℕ → Byte} {r : ℤ} {d' : Drive} (ht : d.transfer = none)
    (hcount : sectorCount ≠ 0) (h : WriteReturns d lba sectorCount buf r d') :
    r = 0 ∧ d'.At (Fs.pataWriteSectors d.disk lba.toNat sectorCount.toNat buf) d.capacity none := by
  by_cases hfits : lba.toNat % 2 ^ 28 + sectorCount.toNat ≤ d.capacity
  · obtain ⟨d₁, hret, hd₁⟩ := pataWriteSectors_returns ht hcount hfits buf
    cases h.unique hret
    exact ⟨rfl, hd₁⟩
  · exact absurd h (Returns.not_of_none (pataWriteSectors_none ht hcount hfits buf))

/-- What a read that returns has done. -/
theorem ReadReturns.at {buf out : ℕ → Byte} {r : ℤ} {d' : Drive} (ht : d.transfer = none)
    (hcount : sectorCount ≠ 0) (h : ReadReturns d lba sectorCount buf r d' out) :
    r = 0 ∧ d'.At d.disk d.capacity none := by
  by_cases hfits : lba.toNat % 2 ^ 28 + sectorCount.toNat ≤ d.capacity
  · obtain ⟨d₁, hret, hd₁⟩ := pataReadSectors_returns ht hcount hfits buf
    cases h.unique hret
    exact ⟨rfl, hd₁⟩
  · exact absurd h (Returns.not_of_none (pataReadSectors_none ht hcount hfits buf))

/-! ### Runs -/

/-- A request for at least one sector. -/
structure Request where
  write : Bool
  lba : BitVec 32
  sectorCount : Byte
  sectorCount_ne : sectorCount ≠ 0
  buf : ℕ → Byte

/-- A request that returns. -/
def RequestStep (d : Drive) (q : Request) (d' : Drive) : Prop :=
  if q.write then ∃ r, WriteReturns d q.lba q.sectorCount q.buf r d'
  else ∃ r out, ReadReturns d q.lba q.sectorCount q.buf r d' out

/-- The disk behind a request, as the file system has it. -/
def Request.after (disk : Disk) (q : Request) : Disk :=
  if q.write then Fs.pataWriteSectors disk q.lba.toNat q.sectorCount.toNat q.buf else disk

theorem requestStep_at {q : Request} {d' : Drive} (ht : d.transfer = none)
    (h : RequestStep d q d') : d'.At (q.after d.disk) d.capacity none := by
  rw [RequestStep] at h
  rw [Request.after]
  split at h
  · rename_i hwrite
    obtain ⟨r, hret⟩ := h
    rw [if_pos hwrite]
    exact (hret.at ht q.sectorCount_ne).2
  · rename_i hread
    obtain ⟨r, out, hret⟩ := h
    rw [if_neg hread]
    exact (hret.at ht q.sectorCount_ne).2

/-- **Runs of requests.**  They change the disk as those of the file system's model do, and leave
the drive idle. -/
theorem requests_at {qs : List Request} {d' : Drive} (ht : d.transfer = none)
    (h : Run RequestStep d qs d') :
    d'.At (qs.foldl Request.after d.disk) d.capacity none := by
  have hstart : d.At (List.foldl Request.after d.disk []) d.capacity none := ⟨rfl, rfl, ht⟩
  refine h.inv_history (I := fun qs d' => d'.At (qs.foldl Request.after d.disk) d.capacity none)
    ?_ hstart
  intro qs d₁ q d₂ hd₁ hstep
  have hd₂ := requestStep_at hd₁.transfer_eq hstep
  rw [hd₁.disk_eq, hd₁.capacity_eq] at hd₂
  rwa [List.foldl_concat]

/-! ### The law of a request -/

/-- What a request is to do.  The sectors it asks for exist, or it is to be refused. -/
structure RequestLaw (d : Drive) (lba : BitVec 32) (sectorCount : Byte) (buf : ℕ → Byte) :
    Prop where
  succeeds : lba.toNat + sectorCount.toNat ≤ d.capacity →
    ∃ d', WriteReturns d lba sectorCount buf 0 d'
  written : ∀ d', WriteReturns d lba sectorCount buf 0 d' → ∀ s < sectorCount.toNat,
    d'.sectorBytes (lba.toNat + s) = slice buf (512 * s) 512
  others : ∀ d', WriteReturns d lba sectorCount buf 0 d' →
    ∀ l, l < lba.toNat ∨ lba.toNat + sectorCount.toNat ≤ l → d'.sectorBytes l = d.sectorBytes l
  readBack : ∀ d', WriteReturns d lba sectorCount buf 0 d' → ∀ out, ∃ d'' out',
    ReadReturns d' lba sectorCount out 0 d'' out' ∧
      slice out' 0 (512 * sectorCount.toNat) = slice buf 0 (512 * sectorCount.toNat) ∧
      ∀ l, d''.sectorBytes l = d'.sectorBytes l
  refusesWrite : d.capacity < lba.toNat + sectorCount.toNat →
    ∃ r d', WriteReturns d lba sectorCount buf r d' ∧ r ≠ 0 ∧
      ∀ l, d'.sectorBytes l = d.sectorBytes l
  refusesRead : d.capacity < lba.toNat + sectorCount.toNat → ∀ out, ∃ r d' out',
    ReadReturns d lba sectorCount out r d' out' ∧ r ≠ 0 ∧ ∀ l, d'.sectorBytes l = d.sectorBytes l

theorem mod_of_fits (hcount : sectorCount ≠ 0)
    (hfits : lba.toNat + sectorCount.toNat ≤ d.capacity) : lba.toNat % 2 ^ 28 = lba.toNat := by
  have hpos := Nat.pos_of_ne_zero (toNat_ne_zero hcount)
  have hcapacity := d.capacity_le
  exact Nat.mod_eq_of_lt (by omega)

/-- The sectors of the disk after a write. -/
theorem sectorBytes_written {d' : Drive} {transfer : Option Transfer} (hcount : sectorCount ≠ 0)
    (hfits : lba.toNat + sectorCount.toNat ≤ d.capacity) {buf : ℕ → Byte}
    (h : d'.At (Fs.pataWriteSectors d.disk lba.toNat sectorCount.toNat buf) d.capacity transfer) :
    (∀ s < sectorCount.toNat, d'.sectorBytes (lba.toNat + s) = slice buf (512 * s) 512) ∧
      ∀ l, l < lba.toNat ∨ lba.toNat + sectorCount.toNat ≤ l →
        d'.sectorBytes l = d.sectorBytes l := by
  have hdisk : d'.disk = overwrite d.disk (512 * lba.toNat) (512 * sectorCount.toNat) buf := by
    have hstart : Fs.sectorStart lba.toNat = 512 * lba.toNat := by
      rw [Fs.sectorStart, mod_of_fits hcount hfits]
    rw [h.disk_eq, ← hstart]
    rfl
  constructor
  · intro s hs
    rw [Drive.sectorBytes, hdisk, slice_eq_slice]
    intro i hi
    rw [Nat.mul_add, Nat.add_assoc, overwrite_inside _ _ _ (by omega)]
  · intro l hl
    rw [Drive.sectorBytes, hdisk, Drive.sectorBytes, slice_eq_slice]
    intro i hi
    exact overwrite_outside _ _ (by omega)

/-- A read of the sectors after a write. -/
theorem reads_written {d' : Drive} (hcount : sectorCount ≠ 0)
    (hfits : lba.toNat + sectorCount.toNat ≤ d.capacity) {buf : ℕ → Byte}
    (h : d'.At (Fs.pataWriteSectors d.disk lba.toNat sectorCount.toNat buf) d.capacity none)
    (out : ℕ → Byte) :
    ∃ d'' out', ReadReturns d' lba sectorCount out 0 d'' out' ∧
      slice out' 0 (512 * sectorCount.toNat) = slice buf 0 (512 * sectorCount.toNat) ∧
      ∀ l, d''.sectorBytes l = d'.sectorBytes l := by
  have hfits' : lba.toNat % 2 ^ 28 + sectorCount.toNat ≤ d'.capacity := by
    rwa [mod_of_fits hcount hfits, h.capacity_eq]
  obtain ⟨d'', hread, hd''⟩ := pataReadSectors_returns h.transfer_eq hcount hfits' out
  refine ⟨d'', _, hread, ?_, ?_⟩
  · rw [slice_eq_slice, h.disk_eq, pataReadSectors_eq]
    intro i hi
    rw [overwrite_inside _ _ _ hi, Nat.zero_add]
    exact overwrite_inside _ _ _ hi
  · intro l
    rw [Drive.sectorBytes, hd''.disk_eq, Drive.sectorBytes]

theorem requestLaw_of_fits (ht : d.transfer = none) (hcount : sectorCount ≠ 0)
    (hfits : lba.toNat + sectorCount.toNat ≤ d.capacity) (buf : ℕ → Byte) :
    RequestLaw d lba sectorCount buf := by
  refine ⟨?_, ?_, ?_, ?_, ?_, ?_⟩
  · intro _
    have hfits' : lba.toNat % 2 ^ 28 + sectorCount.toNat ≤ d.capacity := by
      rwa [mod_of_fits hcount hfits]
    obtain ⟨d', hret, -⟩ := pataWriteSectors_returns ht hcount hfits' buf
    exact ⟨d', hret⟩
  · intro d' h
    exact (sectorBytes_written hcount hfits (h.at ht hcount).2).1
  · intro d' h
    exact (sectorBytes_written hcount hfits (h.at ht hcount).2).2
  · intro d' h
    exact reads_written hcount hfits (h.at ht hcount).2
  · intro hlt
    exact absurd hfits (Nat.not_le.mpr hlt)
  · intro hlt
    exact absurd hfits (Nat.not_le.mpr hlt)

/-- **When the law holds.**  Exactly when the drive has the sectors asked for. -/
theorem requestLaw_iff (ht : d.transfer = none) (hcount : sectorCount ≠ 0) (buf : ℕ → Byte) :
    RequestLaw d lba sectorCount buf ↔ lba.toNat + sectorCount.toNat ≤ d.capacity := by
  constructor
  · intro h
    by_contra hfits
    obtain ⟨r, d', hret, hr, -⟩ := h.refusesWrite (Nat.not_le.mp hfits)
    exact hr (hret.at ht hcount).1
  · intro hfits
    exact requestLaw_of_fits ht hcount hfits buf

end

/-- The largest drive, idle, its sectors all zero. -/
def fullDrive : Drive where
  disk _ := 0
  capacity := 2 ^ 28
  capacity_le := Nat.le_refl _
  device := 0
  secCount := 0
  lbaLow := 0
  lbaMid := 0
  lbaHigh := 0
  error := false
  transfer := none
  busy := 0
  delays _ := 0

theorem requestLaw_two_sectors :
    RequestLaw fullDrive 3 2 fun _ => 0xAA :=
  (requestLaw_iff rfl (by decide) _).mpr (by decide)

/-- Sector 2^28 is on no drive.  A write to it succeeds, and goes to sector 0. -/
theorem high_sector_overwrites_first :
    (∃ d', WriteReturns fullDrive 0x10000000 1 (fun _ => 0xAA) 0 d' ∧
      d'.sectorBytes 0 = slice (fun _ => 0xAA) 0 512) ∧
      ¬ RequestLaw fullDrive 0x10000000 1 fun _ => 0xAA := by
  constructor
  · obtain ⟨d', hret, hd'⟩ : ∃ d', WriteReturns fullDrive 0x10000000 1 _ 0 d' ∧ Drive.At d' _ _ _ :=
      pataWriteSectors_returns rfl (by decide) (by decide) fun _ => 0xAA
    have hdisk : d'.disk = overwrite (fun _ => 0) 0 512 fun _ => 0xAA := hd'.disk_eq
    refine ⟨d', hret, ?_⟩
    rw [Drive.sectorBytes, hdisk, slice_eq_slice]
    intro i hi
    exact overwrite_inside _ _ 0 hi
  · intro h
    obtain ⟨r, d', hret, hr, -⟩ := h.refusesWrite (by decide)
    exact hr (hret.at rfl (by decide)).1

end ZeptoOS.Core
