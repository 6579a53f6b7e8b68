import Mathlib.Data.BitVec
import ZeptoOS.Lib.Bytes

/-!
# Lib — Ata

An ATA drive that takes 28-bit addresses and moves its data by programmed I/O, behind the ports of
the primary channel.  The disk is its bytes, 512 to a sector.

After a command and after every sector the drive is busy: for a number of reads of its status that
is its own (`delays`) it shows nothing else, and takes nothing.  A command for sectors that it does
not have sets the error bit and moves no data.
-/

namespace ZeptoOS.Lib

/-! ### The drive -/

inductive AtaCommand where
  | readSectors
  | writeSectors
deriving DecidableEq

/-- The commands that move sectors by programmed I/O, with retry. -/
def AtaCommand.decode (code : BitVec 8) : Option AtaCommand :=
  if code = 0x20 then some .readSectors
  else if code = 0x30 then some .writeSectors
  else none

/-- The next word to move is `word` of `sector`, and `left` sectors follow. -/
structure Transfer where
  command : AtaCommand
  sector : ℕ
  left : ℕ
  word : ℕ

structure Drive where
  disk : ℕ → BitVec 8
  capacity : ℕ
  capacity_le : capacity ≤ 2 ^ 28
  device : BitVec 8
  secCount : BitVec 8
  lbaLow : BitVec 8
  lbaMid : BitVec 8
  lbaHigh : BitVec 8
  error : Bool
  transfer : Option Transfer
  busy : ℕ
  delays : ℕ → ℕ

namespace Drive

/-- The bytes of sector `l`. -/
def sectorBytes (d : Drive) (l : ℕ) : List (BitVec 8) := slice d.disk (512 * l) 512

/-- The address in the four registers. -/
def lba (d : Drive) : BitVec 28 := d.device.setWidth 4 ++ d.lbaHigh ++ d.lbaMid ++ d.lbaLow

/-- A count of zero asks for 256 sectors. -/
def sectors (d : Drive) : ℕ := if d.secCount = 0 then 256 else d.secCount.toNat

/-- The registers select this drive by LBA, and sectors that it has. -/
def Addresses (d : Drive) : Prop :=
  d.device &&& 0x50 = 0x40 ∧ d.lba.toNat + d.sectors ≤ d.capacity

instance (d : Drive) : Decidable d.Addresses := inferInstanceAs (Decidable (_ ∧ _))

/-- The drive gets busy. -/
def pause (d : Drive) : Drive :=
  { d with busy := d.delays 0, delays := fun n => d.delays (n + 1) }

def start (d : Drive) (code : BitVec 8) : Drive :=
  match AtaCommand.decode code with
  | some command =>
      if d.Addresses then
        { d with error := false, transfer := some ⟨command, d.lba.toNat, d.sectors - 1, 0⟩ }.pause
      else { d with error := true }.pause
  | none => { d with error := true }.pause

/-- What `outb` does. -/
def outb (d : Drive) (port : ℕ) (value : BitVec 8) : Drive :=
  if 0 < d.busy ∨ d.transfer.isSome then d
  else
    match port with
    | 0x1F2 => { d with secCount := value }
    | 0x1F3 => { d with lbaLow := value }
    | 0x1F4 => { d with lbaMid := value }
    | 0x1F5 => { d with lbaHigh := value }
    | 0x1F6 => { d with device := value }
    | 0x1F7 => d.start value
    | _ => d

/-- BSY alone; or DRDY, with DRQ while data are to be moved, and with ERR. -/
def status (d : Drive) : BitVec 8 :=
  if 0 < d.busy then 0x80
  else 0x40 ||| (if d.transfer.isSome then 0x08 else 0) ||| (if d.error then 0x01 else 0)

/-- `inb` of the status port. -/
def inbStatus (d : Drive) : BitVec 8 × Drive := (d.status, { d with busy := d.busy - 1 })

/-- The word at `a`, little-endian. -/
def wordAt (disk : ℕ → BitVec 8) (a : ℕ) : BitVec 16 := disk (a + 1) ++ disk a

/-- The sector behind, if one is left. -/
def nextSector (t : Transfer) : Option Transfer :=
  if t.left = 0 then none else some ⟨t.command, t.sector + 1, t.left - 1, 0⟩

/-- A word of `t` was moved. -/
def advance (d : Drive) (t : Transfer) : Drive :=
  if t.word + 1 < 256 then { d with transfer := some { t with word := t.word + 1 } }
  else { d with transfer := nextSector t }.pause

/-- Where the next word of `t` is. -/
def wordStart (t : Transfer) : ℕ := 512 * t.sector + 2 * t.word

/-- `inw` of the data port. -/
def inw (d : Drive) : BitVec 16 × Drive :=
  match d.transfer with
  | some t =>
      if d.busy = 0 ∧ t.command = .readSectors then (wordAt d.disk (wordStart t), d.advance t)
      else (0, d)
  | none => (0, d)

/-- `outw` to the data port. -/
def outw (d : Drive) (data : BitVec 16) : Drive :=
  match d.transfer with
  | some t =>
      if d.busy = 0 ∧ t.command = .writeSectors then
        { d with
          disk := overwrite d.disk (wordStart t) 2 fun i => data.extractLsb' (8 * i) 8 }.advance t
      else d
  | none => d

/-- `count` sectors from `first` on are asked for, and `done` of them were moved. -/
def remaining (command : AtaCommand) (first count done : ℕ) : Option Transfer :=
  if done < count then some ⟨command, first + done, count - done - 1, 0⟩ else none

/-- What a request sees of the drive, registers and delays apart. -/
structure At (d : Drive) (disk : ℕ → BitVec 8) (capacity : ℕ) (transfer : Option Transfer) :
    Prop where
  disk_eq : d.disk = disk
  capacity_eq : d.capacity = capacity
  transfer_eq : d.transfer = transfer

/-- The drive is ready to move the next word of `t`. -/
structure Moving (d : Drive) (disk : ℕ → BitVec 8) (capacity : ℕ) (t : Transfer) : Prop
    extends At d disk capacity (some t) where
  not_busy : d.busy = 0

variable {d : Drive} {t : Transfer} {disk : ℕ → BitVec 8} {capacity : ℕ}

theorem At.waited {transfer : Option Transfer} (h : d.At disk capacity transfer) :
    At { d with busy := 0 } disk capacity transfer := ⟨h.disk_eq, h.capacity_eq, h.transfer_eq⟩

theorem At.moving (h : d.At disk capacity (some t)) :
    Moving { d with busy := 0 } disk capacity t := ⟨h.waited, rfl⟩

theorem nextSector_remaining (command : AtaCommand) (first : ℕ) {count done : ℕ} (word : ℕ)
    (h : done < count) :
    nextSector ⟨command, first + done, count - done - 1, word⟩ =
      remaining command first count (done + 1) := by
  rw [nextSector, remaining]
  by_cases hlast : done + 1 < count
  · rw [if_pos hlast, if_neg (by dsimp only; omega)]
    rfl
  · rw [if_neg hlast, if_pos (by dsimp only; omega)]

/-! ### The status -/

theorem status_bsy (d : Drive) : d.status &&& 0x80 ≠ 0 ↔ 0 < d.busy := by
  rw [status]
  split
  · rename_i hbusy
    exact iff_of_true (by decide) hbusy
  · rename_i hbusy
    refine iff_of_false ?_ hbusy
    cases d.transfer.isSome <;> cases d.error <;> decide

theorem status_drq (d : Drive) : d.status &&& 0x08 = 0 ↔ 0 < d.busy ∨ d.transfer = none := by
  rw [status]
  split
  · rename_i hbusy
    exact iff_of_true (by decide) (.inl hbusy)
  · rename_i hbusy
    cases ht : d.transfer with
    | none =>
        refine iff_of_true ?_ (.inr rfl)
        cases d.error <;> decide
    | some t =>
        refine iff_of_false ?_ (not_or.mpr ⟨hbusy, Option.some_ne_none t⟩)
        rw [Option.isSome_some]
        cases d.error <;> decide

/-! ### Words -/

theorem getLsbD_wordAt (disk : ℕ → BitVec 8) (a i : ℕ) :
    (wordAt disk a).getLsbD i =
      if i < 8 then (disk a).getLsbD i else (disk (a + 1)).getLsbD (i - 8) := by
  rw [wordAt, BitVec.getLsbD_append]

theorem wordAt_low (disk : ℕ → BitVec 8) (a : ℕ) :
    (wordAt disk a &&& 0xFF).setWidth 8 = disk a := by
  have hmask : (0xFF : BitVec 16).setWidth 8 = BitVec.allOnes 8 := rfl
  rw [BitVec.setWidth_and, hmask, BitVec.and_allOnes]
  ext i hi
  simp [getLsbD_wordAt, hi]

theorem wordAt_high (disk : ℕ → BitVec 8) (a : ℕ) :
    (wordAt disk a >>> 8).setWidth 8 = disk (a + 1) := by
  ext i hi
  simp [getLsbD_wordAt, hi]

theorem Moving.advance_word (h : d.Moving disk capacity t) (hword : t.word + 1 < 256) :
    (d.advance t).Moving disk capacity { t with word := t.word + 1 } := by
  rw [advance, if_pos hword]
  exact ⟨⟨h.disk_eq, h.capacity_eq, rfl⟩, h.not_busy⟩

theorem Moving.advance_sector (h : d.Moving disk capacity t) (hword : ¬ t.word + 1 < 256) :
    (d.advance t).At disk capacity (nextSector t) := by
  rw [advance, if_neg hword]
  exact ⟨h.disk_eq, h.capacity_eq, rfl⟩

theorem Moving.inw (h : d.Moving disk capacity t) (hread : t.command = .readSectors) :
    d.inw = (wordAt disk (wordStart t), d.advance t) := by
  rw [Drive.inw, h.transfer_eq, ← h.disk_eq]
  exact if_pos ⟨h.not_busy, hread⟩

/-- A word written: the disk holds it, and the drive goes on behind it. -/
theorem Moving.outw (h : d.Moving disk capacity t) (hwrite : t.command = .writeSectors)
    (data : BitVec 16) :
    ∃ d' : Drive, d'.Moving (overwrite disk (wordStart t) 2 fun i => data.extractLsb' (8 * i) 8)
      capacity t ∧ d.outw data = d'.advance t := by
  refine ⟨{ d with disk := overwrite disk (wordStart t) 2 fun i => data.extractLsb' (8 * i) 8 },
    ⟨⟨rfl, h.capacity_eq, h.transfer_eq⟩, h.not_busy⟩, ?_⟩
  rw [Drive.outw]
  split
  · rename_i t' ht'
    obtain rfl : t = t' := Option.some.inj (h.transfer_eq.symm.trans ht')
    rw [if_pos ⟨h.not_busy, hwrite⟩, h.disk_eq]
  · rename_i hnone
    cases hnone.symm.trans h.transfer_eq

/-! ### Commands -/

theorem getLsbD_lba (d : Drive) (i : ℕ) :
    d.lba.getLsbD i =
      if i < 8 then d.lbaLow.getLsbD i
      else if i < 16 then d.lbaMid.getLsbD (i - 8)
      else if i < 24 then d.lbaHigh.getLsbD (i - 16)
      else (d.device.setWidth 4).getLsbD (i - 24) := by
  rw [lba, BitVec.getLsbD_append, BitVec.getLsbD_append, BitVec.getLsbD_append]
  grind

theorem start_addressed {code : BitVec 8} {command : AtaCommand}
    (hcode : AtaCommand.decode code = some command) (h : d.Addresses) :
    (d.start code).At d.disk d.capacity
      (some ⟨command, d.lba.toNat, d.sectors - 1, 0⟩) := by
  rw [start, hcode]
  dsimp only
  rw [if_pos h]
  exact ⟨rfl, rfl, rfl⟩

/-- A command for sectors that there are not moves none. -/
theorem start_refused (code : BitVec 8) (h : ¬ d.Addresses) (ht : d.transfer = none) :
    (d.start code).At d.disk d.capacity none := by
  rw [start]
  split
  · rw [if_neg h]
    exact ⟨rfl, rfl, ht⟩
  · exact ⟨rfl, rfl, ht⟩

end Drive

end ZeptoOS.Lib
