import ZeptoOS.Fs.Tar
import ZeptoOS.Fs.Vfs

/-!
# Fs — Ext2

`kernel/fs/ext2.c`, with `pata_read_sectors` and `pata_write_sectors` of `core/pata.c` under it.

The disk is its bytes, 512 to a sector, and an inode the 128 bytes of its record.  A block buffer
has 4096 bytes, of which a read fills the first `block_size`.  `Ext2Fault` is an access outside what
a buffer, a name or `i_block` holds, a division by zero or a shift that is too far.  Numbers are the
values of the `uint32_t` of the source; where an operation can wrap, the `% 2 ^ 32` is written out.
-/

namespace ZeptoOS.Fs
open Lib

/-! ### The disk -/

/-- Byte `i` of sector `l` is at `512 * l + i`. -/
abbrev Disk := ℕ → Byte

/-- Where the drive finds the sector `lba`, of which it is sent 28 bits. -/
def sectorStart (lba : ℕ) : ℕ := 512 * (lba % 2 ^ 28)

/-- `pata_read_sectors`: `buf` after. -/
def pataReadSectors (disk : Disk) (lba sectorCount : ℕ) (buf : ℕ → Byte) : ℕ → Byte := fun i =>
  if i < 512 * sectorCount then disk (sectorStart lba + i) else buf i

/-- `pata_write_sectors`: the disk after. -/
def pataWriteSectors (disk : Disk) (lba sectorCount : ℕ) (buf : ℕ → Byte) : Disk := fun a =>
  if sectorStart lba ≤ a ∧ a < sectorStart lba + 512 * sectorCount then buf (a - sectorStart lba)
  else disk a

/-! ### The mounted file system -/

inductive Ext2Fault where
  | outside
  | divide
  | shift
deriving DecidableEq

/-- What the file system keeps and reads again: `sb.s_inodes_per_group`, `bg.bg_inode_table` and
`block_size`. -/
structure Ext2 where
  inodesPerGroup : ℕ
  inodeTable : ℕ
  blockSize : ℕ
deriving DecidableEq

/-- The bytes of a block buffer. -/
def blockBuf : ℕ := 4096

/-- `uint32_t sectors_per_block = block_size / 512` -/
def Ext2.sectorsPerBlock (E : Ext2) : ℕ := E.blockSize / 512

/-- `ext2_read_block`; the sector count is a `uint8_t`. -/
def ext2ReadBlock (E : Ext2) (disk : Disk) (blockNum : ℕ) : Except Ext2Fault (ℕ → Byte) :=
  let count := E.sectorsPerBlock % 256
  if blockBuf < 512 * count then .error .outside
  else .ok (pataReadSectors disk (blockNum * E.sectorsPerBlock % 2 ^ 32) count fun _ => 0)

/-- `ext2_write_block` -/
def ext2WriteBlock (E : Ext2) (disk : Disk) (blockNum : ℕ) (buf : ℕ → Byte) :
    Except Ext2Fault Disk :=
  let count := E.sectorsPerBlock % 256
  if blockBuf < 512 * count then .error .outside
  else .ok (pataWriteSectors disk (blockNum * E.sectorsPerBlock % 2 ^ 32) count buf)

/-- The members of `struct ext2_super_block` that are read again, at their offsets. -/
structure SuperBlock where
  logBlockSize : ℕ
  inodesPerGroup : ℕ
  magic : ℕ

def superBlock (sector : ℕ → Byte) : SuperBlock where
  logBlockSize := leAt sector 24 4
  inodesPerGroup := leAt sector 40 4
  magic := leAt sector 56 2

/-- `ext2_mount`; `none` is `NULL`. -/
def ext2Mount (disk : Disk) : Except Ext2Fault (Option Ext2) :=
  let sb := superBlock (pataReadSectors disk 2 2 fun _ => 0)
  if sb.magic ≠ 0xEF53 then .ok none
  else if 32 ≤ sb.logBlockSize then .error .shift
  else
    let blockSize := 1024 * 2 ^ sb.logBlockSize % 2 ^ 32
    let bgSector := if blockSize = 1024 then 4 else 2
    let bg := pataReadSectors disk bgSector 1 fun _ => 0
    .ok (some ⟨sb.inodesPerGroup, leAt bg 8 4, blockSize⟩)

/-! ### Inodes -/

/-- `sizeof(struct ext2_inode)` -/
def inodeSize : ℕ := 128

/-- The record of an inode. -/
abbrev Inode := List Byte

/-- The member of `n` bytes at `offset`. -/
def Inode.field (inode : Inode) (offset n : ℕ) : ℕ := leAt (fun i => inode.getD i 0) offset n

def Inode.mode (inode : Inode) : ℕ := inode.field 0 2
def Inode.uid (inode : Inode) : ℕ := inode.field 2 2
def Inode.size (inode : Inode) : ℕ := inode.field 4 4
def Inode.gid (inode : Inode) : ℕ := inode.field 24 2

/-- `i_block[i]` -/
def Inode.block (inode : Inode) (i : ℕ) : ℕ := inode.field (40 + 4 * i) 4

/-- The entries of `i_block`. -/
def inodeBlocks : ℕ := 15

/-- `ext2_read_inode`; `group` is computed there and not used. -/
def ext2ReadInode (E : Ext2) (disk : Disk) (inodeNum : ℕ) : Except Ext2Fault Inode :=
  if E.inodesPerGroup = 0 ∨ E.blockSize / inodeSize = 0 then .error .divide
  else
    let index := (inodeNum + (2 ^ 32 - 1)) % 2 ^ 32 % E.inodesPerGroup
    let blockOffset := index * inodeSize % 2 ^ 32 / E.blockSize
    match ext2ReadBlock E disk ((E.inodeTable + blockOffset) % 2 ^ 32) with
    | .error e => .error e
    | .ok buf => .ok (slice buf (inodeSize * (index % (E.blockSize / inodeSize))) inodeSize)

/-! ### Files -/

/-- The loop of `ext2_read_data` with `size` bytes to read: the bytes it stores. -/
def ext2ReadData (E : Ext2) (disk : Disk) (inode : Inode) (offset size : ℕ) :
    Except Ext2Fault (List Byte) :=
  if h : 0 < size ∧ offset < inode.size then
    if hbs : E.blockSize = 0 then .error .divide
    else
      let bIdx := offset / E.blockSize
      let bOff := offset % E.blockSize
      let chunk := min (min (E.blockSize - bOff) size) (inode.size - offset)
      if inodeBlocks ≤ bIdx then .error .outside
      else
        match ext2ReadBlock E disk (inode.block bIdx) with
        | .error e => .error e
        | .ok bBuf =>
            have : size - chunk < size := by
              have hoff := Nat.mod_lt offset (Nat.pos_of_ne_zero hbs)
              omega
            match ext2ReadData E disk inode (offset + chunk) (size - chunk) with
            | .error e => .error e
            | .ok rest => .ok (slice bBuf bOff chunk ++ rest)
  else .ok []
termination_by size

/-- `ext2_node_read`: the bytes it stores, of which it returns the number. -/
def ext2NodeRead (E : Ext2) (disk : Disk) (node offset size : ℕ) : Except Ext2Fault (List Byte) :=
  match ext2ReadInode E disk node with
  | .error e => .error e
  | .ok inode => ext2ReadData E disk inode offset size

/-- `ext2_node_write` -/
def ext2NodeWrite (E : Ext2) (disk : Disk) (node offset size : ℕ) (buffer : ℕ → Byte) :
    Except Ext2Fault (ℕ × Disk) :=
  match ext2ReadInode E disk node with
  | .error e => .error e
  | .ok inode =>
      if E.blockSize = 0 then .error .divide
      else
        let bIdx := offset / E.blockSize
        if inodeBlocks ≤ bIdx then .error .outside
        else
          match ext2ReadBlock E disk (inode.block bIdx) with
          | .error e => .error e
          | .ok bBuf =>
              let bOff := offset % E.blockSize
              if blockBuf < bOff + size then .error .outside
              else
                match ext2WriteBlock E disk (inode.block bIdx) fun i =>
                    if bOff ≤ i ∧ i < bOff + size then buffer (i - bOff) else bBuf i with
                | .error e => .error e
                | .ok disk => .ok (size, disk)

/-! ### Directories -/

/-- The members of `struct ext2_dir_entry` at `offset`. -/
def entryInode (bBuf : ℕ → Byte) (offset : ℕ) : ℕ := leAt bBuf offset 4
def entryRecLen (bBuf : ℕ → Byte) (offset : ℕ) : ℕ := leAt bBuf (offset + 4) 2
def entryNameLen (bBuf : ℕ → Byte) (offset : ℕ) : ℕ := (bBuf (offset + 6)).toNat
def entryFileType (bBuf : ℕ → Byte) (offset : ℕ) : Byte := bBuf (offset + 7)

/-- The loop of `ext2_node_readdir`.  `offset` does not wrap, as it stays below `block_size`. -/
def readdirLoop (E : Ext2) (disk : Disk) (inode : Inode) (index offset current : ℕ) :
    Except Ext2Fault (Option Dirent) :=
  if offset < inode.size then
    match ext2ReadBlock E disk (inode.block 0) with
    | .error e => .error e
    | .ok bBuf =>
        if E.blockSize < offset + 6 then .error .outside
        else if hlen : entryRecLen bBuf offset = 0 then .ok none
        else if entryInode bBuf offset ≠ 0 ∧ current = index then
          if E.blockSize < offset + 8 + min (entryNameLen bBuf offset) 127 then .error .outside
          else
            .ok (some ⟨slice bBuf (offset + 8) (min (entryNameLen bBuf offset) 127),
              BitVec.ofNat 32 (entryInode bBuf offset), entryFileType bBuf offset⟩)
        else
          readdirLoop E disk inode index (offset + entryRecLen bBuf offset)
            (if entryInode bBuf offset ≠ 0 then current + 1 else current)
  else .ok none
termination_by inode.size - offset

/-- `ext2_node_readdir` -/
def ext2NodeReaddir (E : Ext2) (disk : Disk) (node index : ℕ) : Except Ext2Fault (Option Dirent) :=
  match ext2ReadInode E disk node with
  | .error e => .error e
  | .ok inode => readdirLoop E disk inode index 0 0

/-- `name[i]` -/
def charAt (name : List StrChar) (i : ℕ) : Except Ext2Fault Byte :=
  if h : i < name.length then .ok (name[i]).1
  else if i = name.length then .ok 0
  else .error .outside

/-- The comparison of an entry's name from its character `i` on, with `n` to go. -/
def matchName (E : Ext2) (bBuf : ℕ → Byte) (entryName : ℕ) (name : List StrChar) :
    ℕ → ℕ → Except Ext2Fault Bool
  | 0, i =>
      match charAt name i with
      | .error e => .error e
      | .ok c => .ok (c = 0)
  | n + 1, i =>
      if E.blockSize ≤ entryName + i then .error .outside
      else
        match charAt name i with
        | .error e => .error e
        | .ok c =>
            if bBuf (entryName + i) ≠ c then .ok false
            else matchName E bBuf entryName name n (i + 1)

/-- What `ext2_node_finddir` sets of `target_node`. -/
structure NodeFields where
  inode : ℕ
  mask : ℕ
  uid : ℕ
  gid : ℕ
  length : ℕ
  flags : ℕ
deriving DecidableEq

def targetFields (inodeNum : ℕ) (inode : Inode) : NodeFields where
  inode := inodeNum
  mask := inode.mode
  uid := inode.uid
  gid := inode.gid
  length := inode.size
  flags := if inode.mode &&& 0x4000 ≠ 0 then vfsDirectory else vfsFile

/-- The loop of `ext2_node_finddir`. -/
def finddirLoop (E : Ext2) (disk : Disk) (inode : Inode) (name : List StrChar) (offset : ℕ) :
    Except Ext2Fault (Option NodeFields) :=
  if offset < inode.size then
    match ext2ReadBlock E disk (inode.block 0) with
    | .error e => .error e
    | .ok bBuf =>
        if E.blockSize < offset + 6 then .error .outside
        else if _hlen : entryRecLen bBuf offset = 0 then .ok none
        else if entryInode bBuf offset = 0 then
          finddirLoop E disk inode name (offset + entryRecLen bBuf offset)
        else if E.blockSize < offset + 7 then .error .outside
        else
          match matchName E bBuf (offset + 8) name (entryNameLen bBuf offset) 0 with
          | .error e => .error e
          | .ok false => finddirLoop E disk inode name (offset + entryRecLen bBuf offset)
          | .ok true =>
              match ext2ReadInode E disk (entryInode bBuf offset) with
              | .error e => .error e
              | .ok target => .ok (some (targetFields (entryInode bBuf offset) target))
  else .ok none
termination_by inode.size - offset

/-- `ext2_node_finddir` -/
def ext2NodeFinddir (E : Ext2) (disk : Disk) (node : ℕ) (name : List StrChar) :
    Except Ext2Fault (Option NodeFields) :=
  match ext2ReadInode E disk node with
  | .error e => .error e
  | .ok inode => finddirLoop E disk inode name 0

end ZeptoOS.Fs
