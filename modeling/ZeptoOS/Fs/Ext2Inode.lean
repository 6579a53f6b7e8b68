import ZeptoOS.Fs.Ext2

/-!
# Fs — Ext2Inode

Where `ext2_read_inode` reads.

`ext2_mount` keeps one group descriptor, and for blocks of 2048 and 4096 bytes takes it from the
superblock, where the member at the offset of `bg_inode_table` is `s_r_blocks_count`.  So an inode
reads its own record exactly if the table block kept is that of its group (`reads_own_inode_iff`).
-/

namespace ZeptoOS.Fs
open Lib

/-! ### Blocks -/

/-- The block sizes `ext2_mount` gives well-formed images. -/
def Ext2.Sized (E : Ext2) : Prop :=
  E.blockSize = 1024 ∨ E.blockSize = 2048 ∨ E.blockSize = 4096

/-- Where the block `b` starts on the disk. -/
def Ext2.blockStart (E : Ext2) (b : ℕ) : ℕ := sectorStart (b * E.sectorsPerBlock % 2 ^ 32)

/-- The block `b`, as far as the block buffer holds it. -/
def Ext2.block (E : Ext2) (disk : Disk) (b : ℕ) : ℕ → Byte :=
  pataReadSectors disk (b * E.sectorsPerBlock % 2 ^ 32) (E.sectorsPerBlock % 256) fun _ => 0

theorem Ext2.Sized.sectors {E : Ext2} (hE : E.Sized) :
    512 * (E.sectorsPerBlock % 256) = E.blockSize ∧ E.blockSize ≤ blockBuf ∧ 0 < E.blockSize := by
  rcases hE with h | h | h <;> rw [Ext2.sectorsPerBlock, h] <;> decide

theorem ext2ReadBlock_eq {E : Ext2} (hE : E.Sized) (disk : Disk) (b : ℕ) :
    ext2ReadBlock E disk b = .ok (E.block disk b) := by
  obtain ⟨hcount, hle, -⟩ := hE.sectors
  rw [ext2ReadBlock, hcount, if_neg (Nat.not_lt.mpr hle)]
  rfl

theorem Ext2.block_apply {E : Ext2} (hE : E.Sized) (disk : Disk) (b : ℕ) {i : ℕ}
    (hi : i < E.blockSize) : E.block disk b i = disk (E.blockStart b + i) := by
  rw [Ext2.block, pataReadSectors, hE.sectors.1, if_pos hi]
  rfl

/-- A block the drive can address whole starts where it should. -/
theorem Ext2.blockStart_eq {E : Ext2} (hE : E.Sized) {b : ℕ}
    (hb : (b + 1) * E.blockSize ≤ 512 * 2 ^ 28) : E.blockStart b = b * E.blockSize := by
  rw [Ext2.blockStart, sectorStart, Ext2.sectorsPerBlock]
  rcases hE with h | h | h <;> rw [h] at hb ⊢ <;> omega

/-! ### The record of an inode -/

/-- The index of an inode in the table of its group, as the code computes it. -/
def Ext2.inodeIndex (E : Ext2) (n : ℕ) : ℕ := (n + (2 ^ 32 - 1)) % 2 ^ 32 % E.inodesPerGroup

/-- The block `ext2_read_inode` reads. -/
def Ext2.inodeBlock (E : Ext2) (n : ℕ) : ℕ :=
  (E.inodeTable + E.inodeIndex n * inodeSize % 2 ^ 32 / E.blockSize) % 2 ^ 32

/-- Where `ext2_read_inode` reads. -/
def Ext2.inodeAddr (E : Ext2) (n : ℕ) : ℕ :=
  E.blockStart (E.inodeBlock n) + inodeSize * (E.inodeIndex n % (E.blockSize / inodeSize))

/-- The record lies in the block read for it. -/
theorem Ext2.inodeAddr_in_block {E : Ext2} (hE : E.Sized) (n : ℕ) :
    inodeSize * (E.inodeIndex n % (E.blockSize / inodeSize)) + inodeSize ≤ E.blockSize := by
  generalize E.inodeIndex n = k
  rcases hE with h | h | h <;> rw [h, inodeSize] <;> omega

theorem ext2ReadInode_eq {E : Ext2} (hE : E.Sized) (hgroup : 0 < E.inodesPerGroup) (disk : Disk)
    (n : ℕ) : ext2ReadInode E disk n = .ok (slice disk (E.inodeAddr n) inodeSize) := by
  have hdiv : E.blockSize / inodeSize ≠ 0 := by rcases hE with h | h | h <;> rw [h] <;> decide
  have hin := E.inodeAddr_in_block hE n
  rw [ext2ReadInode, if_neg (not_or.mpr ⟨Nat.ne_of_gt hgroup, hdiv⟩)]
  dsimp only
  rw [ext2ReadBlock_eq hE]
  refine congrArg Except.ok (slice_eq_slice.mpr fun i hi => ?_)
  refine (Ext2.block_apply hE disk _ (lt_of_lt_of_le (Nat.add_lt_add_left hi _) hin)).trans ?_
  rw [← Nat.add_assoc]
  rfl

/-- Without inodes in a group the division traps. -/
theorem ext2ReadInode_group {E : Ext2} {disk : Disk} {n : ℕ} {inode : Inode}
    (h : ext2ReadInode E disk n = .ok inode) : 0 < E.inodesPerGroup := by
  rw [Nat.pos_iff_ne_zero]
  intro hzero
  rw [ext2ReadInode, if_pos (.inl hzero)] at h
  cases h

/-- Whatever the disk holds, the inode `n` is read from `a`. -/
def ReadsRecord (E : Ext2) (n a : ℕ) : Prop :=
  ∀ disk, ext2ReadInode E disk n = .ok (slice disk a inodeSize)

theorem readsRecord_iff {E : Ext2} (hE : E.Sized) (hgroup : 0 < E.inodesPerGroup) {n a : ℕ} :
    ReadsRecord E n a ↔ E.inodeAddr n = a := by
  constructor
  · intro h
    by_contra hne
    -- read a disk that is 1 at `a` and 0 elsewhere
    have hread := h fun x => if x = a then 1 else 0
    rw [ext2ReadInode_eq hE hgroup] at hread
    have hbyte := slice_eq_slice.mp (Except.ok.inj hread) 0 (by decide)
    rw [Nat.add_zero, Nat.add_zero, if_neg hne, if_pos rfl] at hbyte
    exact absurd hbyte (by decide)
  · rintro rfl disk
    exact ext2ReadInode_eq hE hgroup disk n

theorem Inode.toNat_size (inode : Inode) : (BitVec.ofNat 32 inode.size).toNat = inode.size := by
  have hlt : inode.size < 256 ^ 4 := leAt_lt _ _ _
  rw [BitVec.toNat_ofNat, Nat.mod_eq_of_lt (by omega)]

/-! ### Images -/

/-- The member of the superblock at `offset`. -/
def sbField (disk : Disk) (offset n : ℕ) : ℕ := leAt disk (1024 + offset) n

def sbInodesCount (disk : Disk) : ℕ := sbField disk 0 4
def sbBlocksCount (disk : Disk) : ℕ := sbField disk 4 4
def sbRBlocksCount (disk : Disk) : ℕ := sbField disk 8 4
def sbFirstDataBlock (disk : Disk) : ℕ := sbField disk 20 4
def sbLogBlockSize (disk : Disk) : ℕ := sbField disk 24 4
def sbInodesPerGroup (disk : Disk) : ℕ := sbField disk 40 4
def sbMagic (disk : Disk) : ℕ := sbField disk 56 2

def imageBlockSize (disk : Disk) : ℕ := 1024 * 2 ^ sbLogBlockSize disk

/-- `bg_inode_table` of the descriptor of group `g`, in the block after the superblock's. -/
def groupTable (disk : Disk) (g : ℕ) : ℕ :=
  leAt disk ((sbFirstDataBlock disk + 1) * imageBlockSize disk + 32 * g + 8) 4

/-- The group of an inode. -/
def groupOf (disk : Disk) (n : ℕ) : ℕ := (n - 1) / sbInodesPerGroup disk

/-- Where the record of an inode is. -/
def recordAddr (disk : Disk) (n : ℕ) : ℕ :=
  groupTable disk (groupOf disk n) * imageBlockSize disk +
    inodeSize * ((n - 1) % sbInodesPerGroup disk)

/-- The blocks of a group's inode table. -/
def tableBlocks (disk : Disk) : ℕ :=
  (sbInodesPerGroup disk * inodeSize + (imageBlockSize disk - 1)) / imageBlockSize disk

/-- `n` is the number of an inode. -/
def IsInode (disk : Disk) (n : ℕ) : Prop := 1 ≤ n ∧ n ≤ sbInodesCount disk

instance (disk : Disk) (n : ℕ) : Decidable (IsInode disk n) :=
  inferInstanceAs (Decidable (_ ∧ _))

/-- An ext2 superblock with blocks of 1024, 2048 or 4096 bytes. -/
structure Mountable (disk : Disk) : Prop where
  magic : sbMagic disk = 0xEF53
  logBlockSize : sbLogBlockSize disk ≤ 2
  firstDataBlock : sbFirstDataBlock disk = if sbLogBlockSize disk = 0 then 1 else 0

/-- A well-formed image with 128-byte inodes, on a disk the drive can address. -/
structure WellFormed (disk : Disk) : Prop extends Mountable disk where
  -- one block holds the bitmap of a group's inodes
  inodesPerGroup : 0 < sbInodesPerGroup disk ∧ sbInodesPerGroup disk ≤ 8 * imageBlockSize disk
  blocksCount : sbBlocksCount disk * imageBlockSize disk ≤ 512 * 2 ^ 28
  rBlocksCount : sbRBlocksCount disk ≤ sbBlocksCount disk
  table : ∀ n, IsInode disk n → 0 < groupTable disk (groupOf disk n) ∧
    groupTable disk (groupOf disk n) + tableBlocks disk ≤ sbBlocksCount disk
  tablesApart : ∀ n m, IsInode disk n → IsInode disk m → groupOf disk n ≠ groupOf disk m →
    groupTable disk (groupOf disk n) + tableBlocks disk ≤ groupTable disk (groupOf disk m) ∨
      groupTable disk (groupOf disk m) + tableBlocks disk ≤ groupTable disk (groupOf disk n)

/-- The table block `ext2_mount` keeps. -/
def mountedTable (disk : Disk) : ℕ :=
  if sbLogBlockSize disk = 0 then groupTable disk 0 else sbRBlocksCount disk

/-- The table block kept is that of the inode's group: the inode is of the first group where blocks
have 1024 bytes, and otherwise `s_r_blocks_count` happens to be that block. -/
def TableKept (disk : Disk) (n : ℕ) : Prop :=
  if sbLogBlockSize disk = 0 then n ≤ sbInodesPerGroup disk
  else sbRBlocksCount disk = groupTable disk (groupOf disk n)

instance (disk : Disk) (n : ℕ) : Decidable (TableKept disk n) :=
  inferInstanceAs (Decidable (ite _ _ _))

theorem imageBlockSize_cases {disk : Disk} (h : sbLogBlockSize disk ≤ 2) :
    (sbLogBlockSize disk = 0 ∧ imageBlockSize disk = 1024) ∨
      (sbLogBlockSize disk ≠ 0 ∧ (imageBlockSize disk = 2048 ∨ imageBlockSize disk = 4096)) := by
  rw [imageBlockSize]
  obtain hlog | hlog | hlog : sbLogBlockSize disk = 0 ∨ sbLogBlockSize disk = 1 ∨
      sbLogBlockSize disk = 2 := by omega
  · exact .inl ⟨hlog, by rw [hlog]; rfl⟩
  · exact .inr ⟨by omega, .inl (by rw [hlog]; rfl)⟩
  · exact .inr ⟨by omega, .inr (by rw [hlog]; rfl)⟩

/-- A member read from sectors. -/
theorem leAt_pataReadSectors (disk : Disk) {lba count offset n : ℕ} (buf : ℕ → Byte)
    (hin : offset + n ≤ 512 * count) :
    leAt (pataReadSectors disk lba count buf) offset n =
      leAt disk (sectorStart lba + offset) n := by
  refine leAt_eq_leAt fun i hi => ?_
  rw [pataReadSectors, if_pos (by omega), Nat.add_assoc]

/-- `ext2_mount`, by the members of the superblock on the disk. -/
theorem ext2Mount_superblock (disk : Disk) : ext2Mount disk =
    if sbMagic disk ≠ 0xEF53 then .ok none
    else if 32 ≤ sbLogBlockSize disk then .error .shift
    else
      let blockSize := imageBlockSize disk % 2 ^ 32
      let bg := pataReadSectors disk (if blockSize = 1024 then 4 else 2) 1 fun _ => 0
      .ok (some ⟨sbInodesPerGroup disk, leAt bg 8 4, blockSize⟩) := by
  have hsb : superBlock (pataReadSectors disk 2 2 fun _ => 0) =
      ⟨sbLogBlockSize disk, sbInodesPerGroup disk, sbMagic disk⟩ := by
    rw [superBlock, leAt_pataReadSectors disk _ (by decide),
      leAt_pataReadSectors disk _ (by decide), leAt_pataReadSectors disk _ (by decide)]
    rfl
  rw [ext2Mount, hsb]
  rfl

/-- What `ext2_mount` keeps of an image. -/
theorem ext2Mount_eq {disk : Disk} (h : Mountable disk) : ext2Mount disk =
    .ok (some ⟨sbInodesPerGroup disk, mountedTable disk, imageBlockSize disk⟩) := by
  have hlog := h.logBlockSize
  have hfirst := h.firstDataBlock
  have hsize : imageBlockSize disk % 2 ^ 32 = imageBlockSize disk :=
    Nat.mod_eq_of_lt (by rcases imageBlockSize_cases hlog with hbs | hbs <;> omega)
  rw [ext2Mount_superblock, if_neg (not_not_intro h.magic), if_neg (by omega), hsize]
  dsimp only
  rw [leAt_pataReadSectors disk _ (by decide), mountedTable]
  rcases imageBlockSize_cases hlog with ⟨hzero, hbs⟩ | ⟨hzero, hbs⟩
  · rw [if_pos hbs, if_pos hzero, groupTable, hfirst, if_pos hzero, hbs]
    rfl
  · rw [if_neg (by omega), if_neg hzero]
    rfl

/-- The mounted file system of an image. -/
def mounted (disk : Disk) : Ext2 :=
  ⟨sbInodesPerGroup disk, mountedTable disk, imageBlockSize disk⟩

theorem mounted_sized {disk : Disk} (h : Mountable disk) : (mounted disk).Sized := by
  rcases imageBlockSize_cases h.logBlockSize with ⟨-, hbs⟩ | ⟨-, hbs⟩
  · exact .inl hbs
  · exact .inr hbs

/-- The address computed from a table block is that in the table `t` only if the two are the same
block; both are blocks of a disk of `2 ^ 28` sectors, and `k` is an index in the table. -/
theorem tableAddr_eq_iff {E : Ext2} (hE : E.Sized) {k t blocks : ℕ}
    (hk : k < 8 * E.blockSize) (hblocks : blocks * E.blockSize ≤ 512 * 2 ^ 28)
    (hT : E.inodeTable ≤ blocks) (ht : 0 < t)
    (hfit : t + k * inodeSize / E.blockSize < blocks) :
    E.blockStart ((E.inodeTable + k * inodeSize % 2 ^ 32 / E.blockSize) % 2 ^ 32) +
        inodeSize * (k % (E.blockSize / inodeSize)) = t * E.blockSize + inodeSize * k ↔
      E.inodeTable = t := by
  rw [Ext2.blockStart, sectorStart, Ext2.sectorsPerBlock]
  generalize E.inodeTable = T at hT ⊢
  unfold inodeSize at hfit ⊢
  rcases hE with h | h | h <;> rw [h] at hk hblocks hfit ⊢ <;> omega

/-- The records of a group's inodes lie in its table. -/
theorem index_in_table {disk : Disk} (h : WellFormed disk) {k : ℕ}
    (hk : k < sbInodesPerGroup disk) :
    k * inodeSize + inodeSize ≤ tableBlocks disk * imageBlockSize disk := by
  unfold tableBlocks inodeSize
  rcases imageBlockSize_cases h.logBlockSize with ⟨-, hbs⟩ | ⟨-, hbs | hbs⟩ <;> rw [hbs] <;> omega

theorem inodeAddr_eq_iff {disk : Disk} (h : WellFormed disk) {n : ℕ} (hn : IsInode disk n) :
    (mounted disk).inodeAddr n = recordAddr disk n ↔
      mountedTable disk = groupTable disk (groupOf disk n) := by
  have hcount : sbInodesCount disk < 256 ^ 4 := leAt_lt _ _ _
  obtain ⟨hgroup, hbitmap⟩ := h.inodesPerGroup
  obtain ⟨htable, hfit⟩ := h.table n hn
  have hk : (n - 1) % sbInodesPerGroup disk < sbInodesPerGroup disk := Nat.mod_lt _ hgroup
  have hindex : (mounted disk).inodeIndex n = (n - 1) % sbInodesPerGroup disk := by
    refine congrArg (· % sbInodesPerGroup disk) ?_
    have hn₁ := hn.1
    have hn₂ := hn.2
    omega
  have hT : mountedTable disk ≤ sbBlocksCount disk := by
    rw [mountedTable]
    split
    · have hone := (h.table 1 ⟨Nat.le_refl 1, hn.1.trans hn.2⟩).2
      rw [groupOf, Nat.sub_self, Nat.zero_div] at hone
      omega
    · exact h.rBlocksCount
  have hlast : (n - 1) % sbInodesPerGroup disk * inodeSize / imageBlockSize disk <
      tableBlocks disk := by
    have hin := index_in_table h hk
    have hbs : 0 < imageBlockSize disk := (mounted_sized h.toMountable).sectors.2.2
    rw [Nat.div_lt_iff_lt_mul hbs]
    unfold inodeSize at hin ⊢
    omega
  rw [Ext2.inodeAddr, Ext2.inodeBlock, hindex]
  exact tableAddr_eq_iff (mounted_sized h.toMountable) (lt_of_lt_of_le hk hbitmap) h.blocksCount
    hT htable (lt_of_lt_of_le (Nat.add_lt_add_left hlast _) hfit)

/-- The tables of two groups are different blocks. -/
theorem groupTable_inj {disk : Disk} (h : WellFormed disk) {n m : ℕ} (hn : IsInode disk n)
    (hm : IsInode disk m)
    (htable : groupTable disk (groupOf disk n) = groupTable disk (groupOf disk m)) :
    groupOf disk n = groupOf disk m := by
  by_contra hne
  have hin := index_in_table h h.inodesPerGroup.1
  have hblocks : tableBlocks disk ≠ 0 := by
    intro hzero
    rw [hzero, Nat.zero_mul, Nat.zero_mul, Nat.zero_add] at hin
    exact absurd hin (by decide)
  have hapart := h.tablesApart n m hn hm hne
  omega

theorem mountedTable_eq_iff {disk : Disk} (h : WellFormed disk) {n : ℕ} (hn : IsInode disk n) :
    mountedTable disk = groupTable disk (groupOf disk n) ↔ TableKept disk n := by
  rw [mountedTable, TableKept]
  split
  · have hone : IsInode disk 1 := ⟨Nat.le_refl 1, hn.1.trans hn.2⟩
    have hfirst : groupOf disk 1 = 0 := Nat.zero_div _
    have hn₁ := hn.1
    constructor
    · intro htable
      rw [← hfirst] at htable
      have hgroup := groupTable_inj h hone hn htable
      rw [hfirst, groupOf, eq_comm, Nat.div_eq_zero_iff] at hgroup
      have hpos := h.inodesPerGroup.1
      omega
    · intro hle
      rw [groupOf, Nat.div_eq_of_lt (by omega)]
  · exact Iff.rfl

/-- Each inode number has a record of its own. -/
theorem recordAddr_inj {disk : Disk} (h : WellFormed disk) {n m : ℕ} (hn : IsInode disk n)
    (hm : IsInode disk m) (haddr : recordAddr disk m = recordAddr disk n) : m = n := by
  have hpos := h.inodesPerGroup.1
  have hin := fun k => index_in_table h (Nat.mod_lt k hpos)
  -- the records of a table all come before those of a later one
  have hbefore : ∀ {n m : ℕ}, groupTable disk (groupOf disk n) + tableBlocks disk ≤
      groupTable disk (groupOf disk m) → recordAddr disk n < recordAddr disk m := by
    intro n m hle
    have hmul := Nat.mul_le_mul_right (imageBlockSize disk) hle
    have hn := hin (n - 1)
    rw [Nat.add_mul] at hmul
    unfold recordAddr
    unfold inodeSize at hn ⊢
    omega
  have hgroup : groupOf disk m = groupOf disk n := by
    by_contra hne
    rcases h.tablesApart m n hm hn hne with hle | hle
    · exact absurd haddr (hbefore hle).ne
    · exact absurd haddr (hbefore hle).ne'
  have hindex : (m - 1) % sbInodesPerGroup disk = (n - 1) % sbInodesPerGroup disk := by
    rw [recordAddr, recordAddr, hgroup] at haddr
    unfold inodeSize at haddr
    omega
  have hdiv : m - 1 = n - 1 := by
    rw [← Nat.div_add_mod (m - 1) (sbInodesPerGroup disk), hindex]
    exact (congrArg (fun g => _ * g + _) hgroup).trans (Nat.div_add_mod _ _)
  have hn₁ := hn.1
  have hm₁ := hm.1
  omega

/-- **Which inode number reads its own inode.**  On every well-formed image that `ext2_mount`
mounts, `ext2_read_inode` reads the record of the inode's own index in its own group's table exactly
if the table block kept is that of the group; different numbers have different records. -/
theorem reads_own_inode_iff {disk : Disk} (h : WellFormed disk) {E : Ext2}
    (hE : ext2Mount disk = .ok (some E)) {n : ℕ} (hn : IsInode disk n) :
    (ReadsRecord E n (recordAddr disk n) ↔ TableKept disk n) ∧
      ∀ m, IsInode disk m → recordAddr disk m = recordAddr disk n → m = n := by
  obtain rfl : mounted disk = E :=
    Option.some.inj (Except.ok.inj ((ext2Mount_eq h.toMountable).symm.trans hE))
  refine ⟨?_, fun m hm => recordAddr_inj h hn hm⟩
  rw [readsRecord_iff (mounted_sized h.toMountable) h.inodesPerGroup.1, inodeAddr_eq_iff h hn,
    mountedTable_eq_iff h hn]

/-- An image of two groups of 8 inodes, with the tables in the blocks 5 and 6. -/
def twoGroups : Disk := fun a =>
  if a = 1024 then 16 else if a = 1028 then 16 else if a = 1044 then 1 else if a = 1064 then 8
  else if a = 1080 then 0x53 else if a = 1081 then 0xEF
  else if a = 2056 then 5 else if a = 2088 then 6 else 0

theorem twoGroups_wellFormed : WellFormed twoGroups := by
  have hcount : sbInodesCount twoGroups = 16 := by decide +kernel
  have hgroup : sbInodesPerGroup twoGroups = 8 := by decide +kernel
  have hfirst : groupTable twoGroups 0 = 5 := by decide +kernel
  have hsecond : groupTable twoGroups 1 = 6 := by decide +kernel
  have hblocks : tableBlocks twoGroups = 1 := by decide +kernel
  have htotal : sbBlocksCount twoGroups = 16 := by decide +kernel
  have htable : ∀ n, IsInode twoGroups n → (groupOf twoGroups n = 0 ∨ groupOf twoGroups n = 1) := by
    intro n hn
    have hle := hn.2
    rw [hcount] at hle
    rw [groupOf, hgroup]
    omega
  refine ⟨⟨by decide +kernel, by decide +kernel, by decide +kernel⟩, by decide +kernel,
    by decide +kernel, by decide +kernel, fun n hn => ?_, fun n m hn hm hne => ?_⟩
  · rw [hblocks, htotal]
    rcases htable n hn with e | e <;> rw [e]
    · rw [hfirst]
      decide
    · rw [hsecond]
      decide
  · rw [hblocks]
    rcases htable n hn with e | e <;> rcases htable m hm with e' | e' <;> rw [e, e'] at hne ⊢
    · exact absurd rfl hne
    · rw [hfirst, hsecond]
      decide
    · rw [hfirst, hsecond]
      decide
    · exact absurd rfl hne

/-- The first inode of the image reads its record, at the start of block 5. -/
theorem reads_own_inode_first : ReadsRecord (mounted twoGroups) 1 0x1400 := by
  have hrecord : recordAddr twoGroups 1 = 0x1400 := by decide +kernel
  have hkept : TableKept twoGroups 1 := by decide +kernel
  have hread := (reads_own_inode_iff twoGroups_wellFormed
    (ext2Mount_eq twoGroups_wellFormed.toMountable) (n := 1) (by decide +kernel)).1.mpr hkept
  rwa [hrecord] at hread

/-- Inode 9, the first of the second group, reads the record of inode 1. -/
theorem second_group_reads_first :
    ¬ ∀ (disk : Disk) (E : Ext2) (n : ℕ), WellFormed disk → ext2Mount disk = .ok (some E) →
      IsInode disk n → ReadsRecord E n (recordAddr disk n) := by
  intro hall
  have hread := hall twoGroups _ 9 twoGroups_wellFormed
    (ext2Mount_eq twoGroups_wellFormed.toMountable) (by decide +kernel)
  have hsized := mounted_sized twoGroups_wellFormed.toMountable
  have haddr := (readsRecord_iff hsized (by decide +kernel)).mp hread
  have hne : (mounted twoGroups).inodeAddr 9 ≠ recordAddr twoGroups 9 := by decide +kernel
  exact hne haddr

end ZeptoOS.Fs
