import ZeptoOS.Fs.Ext2Inode

/-!
# Fs — Ext2File

Reading and writing the bytes of a file.

`ext2_read_data` reads the bytes of a file across its blocks (`ext2ReadData_eq`).  `ext2_node_write`
writes one block only, so what it wrote reads back exactly if nothing is to change past the end of
that block (`write_then_read_iff`).
-/

namespace ZeptoOS.Fs
open Lib

variable {E : Ext2} {disk : Disk} {inode : Inode}

/-! ### Reading -/

/-- Byte `k` of a file. -/
def fileByte (E : Ext2) (disk : Disk) (inode : Inode) (k : ℕ) : Byte :=
  disk (E.blockStart (inode.block (k / E.blockSize)) + k % E.blockSize)

/-- The bytes within a block are those of the file. -/
theorem slice_block (hE : E.Sized) {offset chunk : ℕ}
    (hchunk : offset % E.blockSize + chunk ≤ E.blockSize) :
    slice (E.block disk (inode.block (offset / E.blockSize))) (offset % E.blockSize) chunk =
      slice (fileByte E disk inode) offset chunk := by
  refine slice_eq_slice.mpr fun i hi => ?_
  have hpos := hE.sectors.2.2
  have hdiv : (offset + i) / E.blockSize = offset / E.blockSize ∧
      (offset + i) % E.blockSize = offset % E.blockSize + i := by
    refine (Nat.div_mod_unique hpos).mpr ⟨?_, by omega⟩
    have hsum := Nat.mod_add_div offset E.blockSize
    omega
  rw [E.block_apply hE disk _ (by omega), fileByte, hdiv.1, hdiv.2]

/-- **Reading a file.**  `ext2_read_data` reads the bytes from `offset` on, up to the end of the
file. -/
theorem ext2ReadData_eq (hE : E.Sized) (hsize : inode.size ≤ inodeBlocks * E.blockSize)
    (offset size : ℕ) : ext2ReadData E disk inode offset size =
      .ok (slice (fileByte E disk inode) offset (min size (inode.size - offset))) := by
  have hpos := hE.sectors.2.2
  induction size using Nat.strong_induction_on generalizing offset with
  | _ size ih =>
      rw [ext2ReadData]
      split
      · rename_i h
        have hoff := Nat.mod_lt offset hpos
        have hidx : ¬ inodeBlocks ≤ offset / E.blockSize := by
          rw [Nat.not_le, Nat.div_lt_iff_lt_mul hpos]
          omega
        -- one turn reads up to the end of the block, and `ih` the rest
        rw [dif_neg (Nat.ne_of_gt hpos)]
        dsimp only
        rw [if_neg hidx, ext2ReadBlock_eq hE]
        dsimp only
        rw [ih _ (by omega)]
        dsimp only
        rw [slice_block hE (by omega), ← slice_append]
        congr 2
        omega
      · rename_i h
        have hnone : min size (inode.size - offset) = 0 := by omega
        rw [hnone]
        rfl

/-! ### Writing -/

/-- The disk after `ext2_node_write` at `offset`, if the block buffer holds what it writes. -/
def writtenDisk (E : Ext2) (disk : Disk) (inode : Inode) (offset size : ℕ) (buffer : ℕ → Byte) :
    Disk := fun a =>
  let start := E.blockStart (inode.block (offset / E.blockSize)) + offset % E.blockSize
  if start ≤ a ∧ a < start + size ∧
      a < E.blockStart (inode.block (offset / E.blockSize)) + E.blockSize then buffer (a - start)
  else disk a

theorem ext2NodeWrite_eq (hE : E.Sized) {node offset size : ℕ} (buffer : ℕ → Byte)
    (hread : ext2ReadInode E disk node = .ok inode) (hoff : offset < inodeBlocks * E.blockSize) :
    ext2NodeWrite E disk node offset size buffer =
      if blockBuf < offset % E.blockSize + size then .error .outside
      else .ok (size, writtenDisk E disk inode offset size buffer) := by
  obtain ⟨hcount, hle, hpos⟩ := hE.sectors
  have hidx : ¬ inodeBlocks ≤ offset / E.blockSize := by
    rwa [Nat.not_le, Nat.div_lt_iff_lt_mul hpos]
  rw [ext2NodeWrite, hread]
  dsimp only
  rw [if_neg (Nat.ne_of_gt hpos), if_neg hidx, ext2ReadBlock_eq hE]
  dsimp only
  split
  · rfl
  · rw [ext2WriteBlock, hcount, if_neg (Nat.not_lt.mpr hle)]
    refine congrArg (fun disk => Except.ok (size, disk)) (funext fun a => ?_)
    generalize hb : inode.block (offset / E.blockSize) = b
    have hstart : sectorStart (b * E.sectorsPerBlock % 2 ^ 32) = E.blockStart b := rfl
    rw [pataWriteSectors, writtenDisk, hcount, hstart, hb]
    by_cases ha : E.blockStart b ≤ a ∧ a < E.blockStart b + E.blockSize
    · rw [if_pos ha]
      by_cases hin : offset % E.blockSize ≤ a - E.blockStart b ∧
          a - E.blockStart b < offset % E.blockSize + size
      · rw [if_pos hin, if_pos (by omega), Nat.sub_sub]
      · rw [if_neg hin, if_neg (by omega), Ext2.block_apply hE disk b (by omega)]
        congr 1
        omega
    · have hlt := Nat.mod_lt offset hpos
      rw [if_neg ha, if_neg (by omega)]

/-- A file of at most twelve blocks, as `ext2_read_inode` finds it: its blocks are on the disk, each
another one and none that the inode is read from. -/
structure SmallFile (E : Ext2) (disk : Disk) (node : ℕ) (inode : Inode) : Prop where
  read : ext2ReadInode E disk node = .ok inode
  size : inode.size ≤ 12 * E.blockSize
  onDisk : ∀ i, i * E.blockSize < inode.size → (inode.block i + 1) * E.blockSize ≤ 512 * 2 ^ 28
  distinct : ∀ i j, i * E.blockSize < inode.size → j * E.blockSize < inode.size →
    inode.block i = inode.block j → i = j
  tableOnDisk : (E.inodeBlock node + 1) * E.blockSize ≤ 512 * 2 ^ 28
  offTable : ∀ i, i * E.blockSize < inode.size → inode.block i ≠ E.inodeBlock node

/-- Different blocks of the disk do not overlap. -/
theorem blocks_apart (hE : E.Sized) {b c : ℕ} (hb : (b + 1) * E.blockSize ≤ 512 * 2 ^ 28)
    (hc : (c + 1) * E.blockSize ≤ 512 * 2 ^ 28) (hne : b ≠ c) :
    E.blockStart b + E.blockSize ≤ E.blockStart c ∨
      E.blockStart c + E.blockSize ≤ E.blockStart b := by
  rw [Ext2.blockStart_eq hE hb, Ext2.blockStart_eq hE hc, ← Nat.succ_mul, ← Nat.succ_mul]
  rcases Nat.lt_or_gt_of_ne hne with h | h
  · exact .inl (Nat.mul_le_mul_right _ h)
  · exact .inr (Nat.mul_le_mul_right _ h)

section Write

variable {node offset size : ℕ} {buffer : ℕ → Byte}

/-- The block of a byte of the file. -/
theorem SmallFile.inFile {k : ℕ} (hk : k < inode.size) :
    k / E.blockSize * E.blockSize < inode.size :=
  lt_of_le_of_lt (Nat.div_mul_le_self k _) hk

/-- A byte of the file after the write. -/
theorem fileByte_written (hE : E.Sized) (hf : SmallFile E disk node inode)
    (hin : offset + size ≤ inode.size) {k : ℕ} (hk : k < inode.size) :
    fileByte E (writtenDisk E disk inode offset size buffer) inode k =
      if k / E.blockSize = offset / E.blockSize ∧ offset ≤ k ∧ k < offset + size then
        buffer (k - offset)
      else fileByte E disk inode k := by
  have hpos := hE.sectors.2.2
  have hkoff := Nat.mod_lt k hpos
  have hk' := Nat.div_add_mod k E.blockSize
  have hoffset := Nat.div_add_mod offset E.blockSize
  rw [fileByte, writtenDisk]
  by_cases hblock : k / E.blockSize = offset / E.blockSize
  · rw [hblock] at hk' ⊢
    generalize E.blockSize * (offset / E.blockSize) = q at hk' hoffset
    by_cases hrange : offset ≤ k ∧ k < offset + size
    · rw [if_pos (by omega), if_pos ⟨rfl, hrange⟩]
      congr 1
      omega
    · rw [if_neg (by omega), if_neg fun h => hrange h.2, fileByte, hblock]
  · refine (if_neg ?_).trans (if_neg fun h => hblock h.1).symm
    -- the byte is of another block of the file, which lies apart from the one written
    rintro ⟨hle, hlt, hend⟩
    have hk₁ := SmallFile.inFile (E := E) hk
    have hoff₁ : offset / E.blockSize * E.blockSize < inode.size := SmallFile.inFile (by omega)
    have hne : inode.block (k / E.blockSize) ≠ inode.block (offset / E.blockSize) :=
      fun e => hblock (hf.distinct _ _ hk₁ hoff₁ e)
    have hapart := blocks_apart hE (hf.onDisk _ hk₁) (hf.onDisk _ hoff₁) hne
    omega

/-- Off the blocks of the file the write changes nothing. -/
theorem writtenDisk_off (hin : offset + size ≤ inode.size) {a : ℕ}
    (ha : ∀ i, i * E.blockSize < inode.size → ¬ (E.blockStart (inode.block i) ≤ a ∧
      a < E.blockStart (inode.block i) + E.blockSize)) :
    writtenDisk E disk inode offset size buffer a = disk a := by
  rw [writtenDisk, if_neg]
  rintro ⟨hle, hlt, hend⟩
  exact ha _ (SmallFile.inFile (by omega)) ⟨by omega, hend⟩

/-- The write leaves the inode as it was. -/
theorem SmallFile.written (hE : E.Sized) (hf : SmallFile E disk node inode)
    (hin : offset + size ≤ inode.size) :
    ext2ReadInode E (writtenDisk E disk inode offset size buffer) node = .ok inode := by
  have hgroup := ext2ReadInode_group hf.read
  refine Eq.trans ?_ hf.read
  rw [ext2ReadInode_eq hE hgroup, ext2ReadInode_eq hE hgroup]
  refine congrArg Except.ok (slice_eq_slice.mpr fun i hi => writtenDisk_off hin fun j hj => ?_)
  have hblock := E.inodeAddr_in_block hE node
  have hapart := blocks_apart hE (hf.onDisk j hj) hf.tableOnDisk (hf.offTable j hj)
  rw [Ext2.inodeAddr]
  omega

/-! ### What was written reads back -/

/-- A write at `offset` succeeds, and after it the bytes written read back, the others of the file
read as before, and no byte of the disk off the file's blocks has changed. -/
def WriteThenRead (E : Ext2) (disk : Disk) (node : ℕ) (inode : Inode) (offset size : ℕ)
    (buffer : ℕ → Byte) : Prop :=
  ∃ disk', ext2NodeWrite E disk node offset size buffer = .ok (size, disk') ∧
    ext2NodeRead E disk' node offset size = .ok (slice buffer 0 size) ∧
    (∀ k < inode.size, ¬ (offset ≤ k ∧ k < offset + size) →
      ext2NodeRead E disk' node k 1 = ext2NodeRead E disk node k 1) ∧
    ∀ a, (∀ i, i * E.blockSize < inode.size → ¬ (E.blockStart (inode.block i) ≤ a ∧
      a < E.blockStart (inode.block i) + E.blockSize)) → disk' a = disk a

/-- What is written fits the block buffer, and past the end of its first block is what the file
holds there already. -/
def WithinBlock (E : Ext2) (disk : Disk) (inode : Inode) (offset size : ℕ) (buffer : ℕ → Byte) :
    Prop :=
  offset % E.blockSize + size ≤ blockBuf ∧
    ∀ i < size, E.blockSize ≤ offset % E.blockSize + i →
      buffer i = fileByte E disk inode (offset + i)

/-- The bytes of a file as `ext2_node_read` finds them. -/
theorem ext2NodeRead_eq (hE : E.Sized) (hread : ext2ReadInode E disk node = .ok inode)
    (hsize : inode.size ≤ 12 * E.blockSize) (hin : offset + size ≤ inode.size) :
    ext2NodeRead E disk node offset size = .ok (slice (fileByte E disk inode) offset size) := by
  have hblocks : inode.size ≤ inodeBlocks * E.blockSize := by
    unfold inodeBlocks
    omega
  rw [ext2NodeRead, hread]
  dsimp only
  rw [ext2ReadData_eq hE hblocks, Nat.min_eq_left (by omega)]

/-- A byte written lies past the end of the first block if it is not in that block. -/
theorem past_block_iff (hE : E.Sized) (offset i : ℕ) :
    E.blockSize ≤ offset % E.blockSize + i ↔
      (offset + i) / E.blockSize ≠ offset / E.blockSize := by
  have hpos := hE.sectors.2.2
  have hoffset := Nat.div_add_mod offset E.blockSize
  rw [Ne, Nat.div_eq_iff hpos, Nat.mul_comm]
  generalize E.blockSize * (offset / E.blockSize) = q at hoffset ⊢
  omega

theorem SmallFile.offset_lt (hf : SmallFile E disk node inode) (hE : E.Sized)
    (hin : offset + size ≤ inode.size) : offset < inodeBlocks * E.blockSize := by
  have hsize := hf.size
  have hpos := hE.sectors.2.2
  unfold inodeBlocks
  omega

theorem WriteThenRead.withinBlock (hE : E.Sized) (hf : SmallFile E disk node inode)
    (hin : offset + size ≤ inode.size) (h : WriteThenRead E disk node inode offset size buffer) :
    WithinBlock E disk inode offset size buffer := by
  obtain ⟨disk', hret, hback, -⟩ := h
  rw [ext2NodeWrite_eq hE buffer hf.read (hf.offset_lt hE hin)] at hret
  split at hret
  · cases hret
  · rename_i hfits
    cases hret
    refine ⟨Nat.not_lt.mp hfits, fun i hi hpast => ?_⟩
    rw [ext2NodeRead_eq hE (hf.written hE hin) hf.size hin] at hback
    have hbyte := slice_eq_slice.mp (Except.ok.inj hback) i hi
    rw [fileByte_written hE hf hin (by omega),
      if_neg fun h => (past_block_iff hE offset i).mp hpast h.1, Nat.zero_add] at hbyte
    exact hbyte.symm

theorem WithinBlock.writeThenRead (hE : E.Sized) (hf : SmallFile E disk node inode)
    (hin : offset + size ≤ inode.size) (h : WithinBlock E disk inode offset size buffer) :
    WriteThenRead E disk node inode offset size buffer := by
  obtain ⟨hfits, hpast⟩ := h
  have hwrite : ext2NodeWrite E disk node offset size buffer = _ :=
    ext2NodeWrite_eq hE buffer hf.read (hf.offset_lt hE hin)
  rw [if_neg (Nat.not_lt.mpr hfits)] at hwrite
  have hread : ext2ReadInode E (writtenDisk E disk inode offset size buffer) node = .ok inode :=
    hf.written hE hin
  refine ⟨_, hwrite, ?_, fun k hk hout => ?_, fun a ha => writtenDisk_off hin ha⟩
  · rw [ext2NodeRead_eq hE hread hf.size hin]
    refine congrArg Except.ok (slice_eq_slice.mpr fun i hi => ?_)
    rw [fileByte_written hE hf hin (by omega), Nat.zero_add]
    split
    · rw [Nat.add_sub_cancel_left]
    · rename_i hother
      refine (hpast i hi ((past_block_iff hE offset i).mpr fun e => hother ⟨e, ?_⟩)).symm
      omega
  · rw [ext2NodeRead_eq hE hread hf.size (by omega), ext2NodeRead_eq hE hf.read hf.size (by omega)]
    refine congrArg Except.ok (slice_eq_slice.mpr fun i hi => ?_)
    obtain rfl : i = 0 := by omega
    rw [Nat.add_zero, fileByte_written hE hf hin hk, if_neg fun h => hout h.2]

end Write

/-- **Write, then read.**  A write within a file of at most twelve blocks reads back, and changes
nothing else, exactly if past the end of the block it starts in it writes what the file holds
there. -/
theorem write_then_read_iff (hE : E.Sized) {node : ℕ} (hf : SmallFile E disk node inode)
    {offset size : ℕ} (hin : offset + size ≤ inode.size) (buffer : ℕ → Byte) :
    WriteThenRead E disk node inode offset size buffer ↔
      WithinBlock E disk inode offset size buffer :=
  ⟨fun h => h.withinBlock hE hf hin, fun h => h.writeThenRead hE hf hin⟩

/-- An image whose inode 1 is a file of the blocks 10 and 11. -/
def twoBlockFile : Disk := fun a =>
  if a = 5125 then 8 else if a = 5160 then 10 else if a = 5164 then 11 else twoGroups a

theorem twoBlockFile_mount : ext2Mount twoBlockFile = .ok (some ⟨8, 5, 1024⟩) := by
  decide +kernel

theorem twoBlockFile_file :
    SmallFile ⟨8, 5, 1024⟩ twoBlockFile 1 (slice twoBlockFile 5120 inodeSize) := by
  have hsize : Inode.size (slice twoBlockFile 5120 inodeSize) = 2048 := by decide +kernel
  have hfirst : Inode.block (slice twoBlockFile 5120 inodeSize) 0 = 10 := by decide +kernel
  have hsecond : Inode.block (slice twoBlockFile 5120 inodeSize) 1 = 11 := by decide +kernel
  have hblock : Ext2.inodeBlock ⟨8, 5, 1024⟩ 1 = 5 := by decide +kernel
  have htwo : ∀ i, i * 1024 < 2048 → i = 0 ∨ i = 1 := by
    intro i hi
    omega
  refine ⟨by decide +kernel, ?_, ?_, ?_, ?_, ?_⟩
  · rw [hsize]
    decide
  · rw [hsize]
    intro i hi
    rcases htwo i hi with rfl | rfl
    · rw [hfirst]
      decide
    · rw [hsecond]
      decide
  · rw [hsize]
    intro i j hi hj
    rcases htwo i hi with rfl | rfl <;> rcases htwo j hj with rfl | rfl
    · exact fun _ => rfl
    · rw [hfirst, hsecond]
      decide
    · rw [hfirst, hsecond]
      decide
    · exact fun _ => rfl
  · rw [hblock]
    decide
  · rw [hsize, hblock]
    intro i hi
    rcases htwo i hi with rfl | rfl
    · rw [hfirst]
      decide
    · rw [hsecond]
      decide

/-- Four bytes written at the start of the file read back. -/
theorem write_then_read_start :
    WriteThenRead ⟨8, 5, 1024⟩ twoBlockFile 1 (slice twoBlockFile 5120 inodeSize) 0 4
      fun _ => 0xFF := by
  refine (write_then_read_iff (.inl rfl) twoBlockFile_file (by decide +kernel) _).mpr
    ⟨by decide, ?_⟩
  intro i hi hpast
  exact absurd hpast (by dsimp only; omega)

/-- Of 100 bytes written at 1000 the last 76 do not reach the file. -/
theorem write_across_blocks_lost :
    ¬ ∀ (disk : Disk) (E : Ext2) (node : ℕ) (inode : Inode) (offset size : ℕ) (buffer : ℕ → Byte),
      ext2Mount disk = .ok (some E) → E.Sized → SmallFile E disk node inode →
      offset + size ≤ inode.size → WriteThenRead E disk node inode offset size buffer := by
  intro hall
  have hwrite := hall twoBlockFile _ 1 _ 1000 100 (fun _ => 0xFF) twoBlockFile_mount (.inl rfl)
    twoBlockFile_file (by decide +kernel)
  have hwithin := hwrite.withinBlock (.inl rfl) twoBlockFile_file (by decide +kernel)
  have hbyte := hwithin.2 24 (by decide) (by decide)
  have hfile : fileByte ⟨8, 5, 1024⟩ twoBlockFile (slice twoBlockFile 5120 inodeSize)
      (1000 + 24) = 0 := by
    decide +kernel
  rw [hfile] at hbyte
  exact absurd hbyte (by decide)

end ZeptoOS.Fs
