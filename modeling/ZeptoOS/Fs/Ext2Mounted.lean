import ZeptoOS.Fs.Ext2Nodes

/-!
# Fs — Ext2Mounted

What `ext2_mount` takes from an image.

The group descriptors follow the block of the superblock.  `ext2_mount` reads them there where
blocks have 1024 bytes, and where they have more it reads the superblock again, so that it finds the
inode table of the first group exactly if `s_r_blocks_count` happens to be its block.  The root
inode is read as the second record of 128 bytes in the table, whatever size the image gives its
inodes (`mount_finds_table_iff`).

It takes `s_log_block_size` and `s_inodes_per_group` as they are, and what follows is well-defined
exactly if these are (`mount_well_defined_iff`).
-/

namespace ZeptoOS.Fs
open Lib

variable {disk : Disk} {E : Ext2}

/-! ### The group descriptors -/

def sbRevLevel (disk : Disk) : ℕ := sbField disk 76 4

/-- The size of an inode: `s_inode_size`, which images of revision 0 do not have. -/
def sbInodeSize (disk : Disk) : ℕ := if sbRevLevel disk = 0 then 128 else sbField disk 88 2

/-- The root inode is an inode of the first group, as a group has no fewer than 8. -/
def RootInFirst (disk : Disk) : Prop :=
  IsInode disk rootFields.inode ∧ groupOf disk rootFields.inode = 0

instance (disk : Disk) : Decidable (RootInFirst disk) :=
  inferInstanceAs (Decidable (_ ∧ _))

/-- What a well-formed image has of its first group, on a disk the drive can address.  Inodes may
have any size. -/
structure FirstGroup (disk : Disk) : Prop extends Mountable disk where
  root : RootInFirst disk
  inodesPerGroup : 0 < sbInodesPerGroup disk
  blocksCount : sbBlocksCount disk * imageBlockSize disk ≤ 512 * 2 ^ 28
  table : groupTable disk 0 < sbBlocksCount disk

theorem WellFormed.firstGroup (h : WellFormed disk) (hroot : RootInFirst disk) :
    FirstGroup disk := by
  refine ⟨h.toMountable, hroot, h.inodesPerGroup.1, h.blocksCount, ?_⟩
  have htable := (h.table _ hroot.1).2
  have hin := index_in_table h h.inodesPerGroup.1
  have hblocks : tableBlocks disk ≠ 0 := by
    intro hzero
    rw [hzero, Nat.zero_mul, Nat.zero_mul, Nat.zero_add] at hin
    exact absurd hin (by decide)
  rw [hroot.2] at htable
  omega

/-- Where the record of the root inode is, the second of its group. -/
def rootAddr (disk : Disk) : ℕ := groupTable disk 0 * imageBlockSize disk + sbInodeSize disk

/-- The mounted file system has the inode table of the first group, and the root directory is the
record of the root inode. -/
structure FindsTable (disk : Disk) (E : Ext2) : Prop where
  table : E.inodeTable = groupTable disk 0
  root : ReadsRecord E rootFields.inode (rootAddr disk)

/-- The root inode is read as the second record of 128 bytes in the table. -/
theorem inodeAddr_root (h : FirstGroup disk) : (mounted disk).inodeAddr rootFields.inode =
    (mounted disk).blockStart (mountedTable disk) + inodeSize := by
  have hgroup := h.root.2
  have hpos := h.inodesPerGroup
  have hindex : (mounted disk).inodeIndex rootFields.inode = 1 := by
    rw [groupOf, Nat.div_eq_zero_iff] at hgroup
    exact Nat.mod_eq_of_lt (hgroup.resolve_left (Nat.ne_of_gt hpos))
  have hT : mountedTable disk < 2 ^ 32 := by
    rw [mountedTable]
    split <;> exact leAt_lt _ _ _
  have hblock : (mounted disk).inodeBlock rootFields.inode = mountedTable disk := by
    rw [Ext2.inodeBlock, hindex]
    rcases mounted_sized h.toMountable with hE | hE | hE <;> rw [hE] <;>
      exact Nat.mod_eq_of_lt hT
  rw [Ext2.inodeAddr, hblock, hindex]
  rcases mounted_sized h.toMountable with hE | hE | hE <;> rw [hE] <;> rfl

/-- **The group descriptors of an image.** -/
theorem mount_finds_table_iff (h : FirstGroup disk) (hE : ext2Mount disk = .ok (some E)) :
    FindsTable disk E ↔
      (sbLogBlockSize disk = 0 ∨ sbRBlocksCount disk = groupTable disk 0) ∧
        sbInodeSize disk = 128 := by
  have hsized := mounted_sized h.toMountable
  obtain rfl : mounted disk = E :=
    Option.some.inj (Except.ok.inj ((ext2Mount_eq h.toMountable).symm.trans hE))
  have hkept : mountedTable disk = groupTable disk 0 ↔
      sbLogBlockSize disk = 0 ∨ sbRBlocksCount disk = groupTable disk 0 := by
    rw [mountedTable]
    split
    · rename_i hzero
      exact iff_of_true rfl (.inl hzero)
    · rename_i hzero
      exact (or_iff_right hzero).symm
  -- the table's first block lies on the disk, so it is read where it starts
  have hstart : (mounted disk).blockStart (groupTable disk 0) =
      groupTable disk 0 * imageBlockSize disk :=
    Ext2.blockStart_eq hsized ((Nat.mul_le_mul_right _ h.table).trans h.blocksCount)
  have hrecord : mountedTable disk = groupTable disk 0 →
      (ReadsRecord (mounted disk) rootFields.inode (rootAddr disk) ↔ sbInodeSize disk = 128) := by
    intro htable
    rw [readsRecord_iff hsized h.inodesPerGroup, inodeAddr_root h, htable, hstart, rootAddr,
      Nat.add_left_cancel_iff, eq_comm, inodeSize]
  rw [← hkept]
  constructor
  · intro hfinds
    exact ⟨hfinds.table, (hrecord hfinds.table).mp hfinds.root⟩
  · rintro ⟨htable, hsize⟩
    exact ⟨htable, (hrecord htable).mpr hsize⟩

/-- The table of the first group of the image with two is found. -/
theorem mount_finds_table_1024 : FindsTable twoGroups (mounted twoGroups) :=
  (mount_finds_table_iff (twoGroups_wellFormed.firstGroup (by decide +kernel))
    (ext2Mount_eq twoGroups_wellFormed.toMountable)).mpr
      ⟨.inl (by decide +kernel), by decide +kernel⟩

/-- An image with blocks of 2048 bytes and the inode table in block 5. -/
def bigBlocks : Disk := fun a =>
  if a = 1024 then 8 else if a = 1028 then 16 else if a = 1048 then 1 else if a = 1064 then 8
  else if a = 1080 then 0x53 else if a = 1081 then 0xEF else if a = 2056 then 5 else 0

theorem bigBlocks_wellFormed : WellFormed bigBlocks := by
  have hcount : sbInodesCount bigBlocks = 8 := by decide +kernel
  have hgroup : sbInodesPerGroup bigBlocks = 8 := by decide +kernel
  have htable : groupTable bigBlocks 0 = 5 := by decide +kernel
  have hblocks : tableBlocks bigBlocks = 1 := by decide +kernel
  have htotal : sbBlocksCount bigBlocks = 16 := by decide +kernel
  have hfirst : ∀ n, IsInode bigBlocks n → groupOf bigBlocks n = 0 := by
    intro n hn
    have hle := hn.2
    rw [hcount] at hle
    rw [groupOf, hgroup]
    omega
  refine ⟨⟨by decide +kernel, by decide +kernel, by decide +kernel⟩, by decide +kernel,
    by decide +kernel, by decide +kernel, ?_, ?_⟩
  · intro n hn
    rw [hfirst n hn, htable, hblocks, htotal]
    decide
  · intro n m hn hm hne
    exact absurd ((hfirst n hn).trans (hfirst m hm).symm) hne

/-- Where blocks have 2048 bytes, the inode table is taken to be block 0. -/
theorem big_blocks_table_lost :
    ¬ ∀ (disk : Disk) (E : Ext2), WellFormed disk → RootInFirst disk →
      ext2Mount disk = .ok (some E) → FindsTable disk E := by
  intro hall
  have hfinds := hall bigBlocks _ bigBlocks_wellFormed (by decide +kernel)
    (ext2Mount_eq bigBlocks_wellFormed.toMountable)
  have htable : mountedTable bigBlocks ≠ groupTable bigBlocks 0 := by decide +kernel
  exact htable hfinds.table

/-! ### The later operations -/

/-- An operation does not divide by zero, and does not shift too far. -/
def NoTrap {A : Type} (x : Except Ext2Fault A) : Prop :=
  x ≠ .error .divide ∧ x ≠ .error .shift

/-- What a mounted file system needs: a block fits the block buffer and its sectors the count of a
read, and no operation traps, whatever the disk holds by then. -/
structure WellDefined (E : Ext2) : Prop where
  blockSize : E.Sized
  sectors : 512 * E.sectorsPerBlock ≤ blockBuf ∧ E.sectorsPerBlock < 256
  read : ∀ disk node offset size, NoTrap (ext2NodeRead E disk node offset size)
  write : ∀ disk node offset size buffer, NoTrap (ext2NodeWrite E disk node offset size buffer)
  readdir : ∀ disk node index, NoTrap (ext2NodeReaddir E disk node index)
  finddir : ∀ disk node name, NoTrap (ext2NodeFinddir E disk node name)

/-- `ext2_mount` mounts the image, and what follows is well-defined. -/
def MountsWellDefined (disk : Disk) : Prop :=
  ∃ E, ext2Mount disk = .ok (some E) ∧ WellDefined E

section Sized

variable {inode : Inode}

theorem noTrap_of_outside {A : Type} {x : Except Ext2Fault A}
    (h : ∀ e, x = .error e → e = .outside) : NoTrap x :=
  ⟨fun hx => absurd (h _ hx) (by decide), fun hx => absurd (h _ hx) (by decide)⟩

/-- `ext2_read_data` fails only by leaving `i_block`. -/
theorem ext2ReadData_error (hE : E.Sized) {offset size : ℕ} {e : Ext2Fault}
    (h : ext2ReadData E disk inode offset size = .error e) : e = .outside := by
  have hpos := hE.sectors.2.2
  induction size using Nat.strong_induction_on generalizing offset with
  | _ size ih =>
      rw [ext2ReadData] at h
      split at h
      · rename_i hmore
        have hoff := Nat.mod_lt offset hpos
        rw [dif_neg (Nat.ne_of_gt hpos)] at h
        dsimp only at h
        rw [ext2ReadBlock_eq hE] at h
        split at h
        · cases h
          rfl
        · dsimp only at h
          split at h
          · rename_i hrest
            cases h
            exact ih _ (by omega) hrest
          · cases h
      · cases h

theorem matchName_error {buf : ℕ → Byte} {entryName : ℕ} {name : List StrChar} {n i : ℕ}
    {e : Ext2Fault} (h : matchName E buf entryName name n i = .error e) : e = .outside := by
  have hchar : ∀ {i e}, charAt name i = .error e → e = .outside := by
    intro i e hc
    rw [charAt] at hc
    split at hc
    · cases hc
    · split at hc
      · cases hc
      · cases hc
        rfl
  induction n generalizing i with
  | zero =>
      rw [matchName] at h
      split at h
      · rename_i hc
        cases h
        exact hchar hc
      · cases h
  | succ n ih =>
      rw [matchName] at h
      split at h
      · cases h
        rfl
      · split at h
        · rename_i hc
          cases h
          exact hchar hc
        · split at h
          · cases h
          · exact ih h

/-- `ext2_node_readdir` fails only by leaving the block. -/
theorem readdirLoop_error (hE : E.Sized) {index offset current : ℕ} {e : Ext2Fault}
    (h : readdirLoop E disk inode index offset current = .error e) : e = .outside := by
  fun_induction readdirLoop E disk inode index offset current with
  | case1 _ _ _ _ hread =>
      rw [ext2ReadBlock_eq hE] at hread
      cases hread
  | case6 _ _ _ _ _ _ _ _ ih => exact ih h
  | case2 | case4 =>
      cases h
      rfl
  | _ => cases h

/-- `ext2_node_finddir` fails only by leaving the block or the name. -/
theorem finddirLoop_error (hE : E.Sized) (hgroup : 0 < E.inodesPerGroup) {name : List StrChar}
    {offset : ℕ} {e : Ext2Fault} (h : finddirLoop E disk inode name offset = .error e) :
    e = .outside := by
  fun_induction finddirLoop E disk inode name offset with
  | case1 _ _ _ hread =>
      rw [ext2ReadBlock_eq hE] at hread
      cases hread
  | case4 _ _ _ _ _ _ _ ih => exact ih h
  | case7 _ _ _ _ _ _ _ _ _ ih => exact ih h
  | case6 _ _ _ _ _ _ _ _ _ hmatch =>
      cases h
      exact matchName_error hmatch
  | case8 _ _ _ _ _ _ _ _ _ _ hread =>
      rw [ext2ReadInode_eq hE hgroup] at hread
      cases hread
  | case2 | case5 =>
      cases h
      rfl
  | _ => cases h

/-- With such a block size and inodes in a group every operation is well-defined. -/
theorem Ext2.Sized.wellDefined (hE : E.Sized) (hgroup : 0 < E.inodesPerGroup) : WellDefined E where
  blockSize := hE
  sectors := by rcases hE with h | h | h <;> rw [Ext2.sectorsPerBlock, h] <;> decide
  read disk node offset size := noTrap_of_outside fun e he => by
    rw [ext2NodeRead, ext2ReadInode_eq hE hgroup] at he
    exact ext2ReadData_error hE he
  write disk node offset size buffer := noTrap_of_outside fun e he => by
    obtain ⟨hcount, hle, hpos⟩ := hE.sectors
    rw [ext2NodeWrite, ext2ReadInode_eq hE hgroup] at he
    dsimp only at he
    rw [if_neg (Nat.ne_of_gt hpos), ext2ReadBlock_eq hE] at he
    dsimp only at he
    rw [ext2WriteBlock, hcount, if_neg (Nat.not_lt.mpr hle)] at he
    split at he
    · cases he
      rfl
    · split at he
      · cases he
        rfl
      · cases he
  readdir disk node index := noTrap_of_outside fun e he => by
    rw [ext2NodeReaddir, ext2ReadInode_eq hE hgroup] at he
    exact readdirLoop_error hE he
  finddir disk node name := noTrap_of_outside fun e he => by
    rw [ext2NodeFinddir, ext2ReadInode_eq hE hgroup] at he
    exact finddirLoop_error hE hgroup he

end Sized

/-- **What follows a mount.**  For every image on which `ext2_mount` returns a node, the operations
that follow are well-defined exactly if blocks have at most 4096 bytes and groups have inodes. -/
theorem mount_well_defined_iff (hmount : ext2Mount disk ≠ .ok none) : MountsWellDefined disk ↔
    sbLogBlockSize disk ≤ 2 ∧ sbInodesPerGroup disk ≠ 0 := by
  have heq := ext2Mount_superblock disk
  have hmagic : ¬ sbMagic disk ≠ 0xEF53 := fun h => hmount (heq.trans (if_pos h))
  rw [if_neg hmagic] at heq
  constructor
  · rintro ⟨E, hE, hdef⟩
    rw [hE] at heq
    split at heq
    · cases heq
    · rename_i hshift
      obtain rfl := Option.some.inj (Except.ok.inj heq)
      refine ⟨?_, ?_⟩
      · have hpow : ∀ n < 32, 1024 * 2 ^ n % 2 ^ 32 = 1024 ∨ 1024 * 2 ^ n % 2 ^ 32 = 2048 ∨
            1024 * 2 ^ n % 2 ^ 32 = 4096 → n ≤ 2 := by decide
        exact hpow _ (Nat.not_le.mp hshift) hdef.blockSize
      · intro hzero
        refine (hdef.read disk 0 0 0).1 ?_
        rw [ext2NodeRead, ext2ReadInode, if_pos (.inl hzero)]
  · rintro ⟨hlog, hgroup⟩
    rw [if_neg (by omega)] at heq
    refine ⟨_, heq, Ext2.Sized.wellDefined ?_ (Nat.pos_of_ne_zero hgroup)⟩
    rw [Ext2.Sized]
    dsimp only
    rcases imageBlockSize_cases hlog with h | h <;> omega

/-- What follows the mount of the image with two groups is well-defined. -/
theorem mount_well_defined_two_groups : MountsWellDefined twoGroups :=
  (mount_well_defined_iff (by rw [ext2Mount_eq twoGroups_wellFormed.toMountable]; simp)).mpr
    ⟨by decide +kernel, by decide +kernel⟩

/-- With nothing but the magic number an image is mounted, and the first operation divides by the 0
inodes of a group. -/
theorem no_inodes_divides : ¬ ∀ disk, ext2Mount disk ≠ .ok none → MountsWellDefined disk := by
  intro hall
  let disk : Disk := fun a => if a = 1080 then 0x53 else if a = 1081 then 0xEF else 0
  have hmount : ext2Mount disk = .ok (some ⟨0, 0, 1024⟩) := by decide +kernel
  obtain ⟨E, hE, hdef⟩ := hall disk (by rw [hmount]; simp)
  obtain rfl := Option.some.inj (Except.ok.inj (hmount.symm.trans hE))
  exact (hdef.read disk 2 0 1).1 rfl

end ZeptoOS.Fs
