import Mathlib.Data.BitVec
import ZeptoOS.Lib.Bytes

/-!
# Fs — Tar

`kernel/fs/tar.c`: the walk of `tar_parse` over the headers of an archive in memory, the tables it
fills, and `tar_read`.  A `char` is a byte; the digits and the terminator it is compared with are
below `0x80`, so its sign does not matter.

The walk takes a bound on the headers it looks at, and has no result where that does not suffice.
`Inspects` is the headers it looks at, without a bound.
-/

namespace ZeptoOS.Fs
open Lib

abbrev Byte := BitVec 8

/-- `struct tar_file_entry`; the name without its terminator. -/
structure FileEntry where
  name : List Byte
  address : BitVec 32
  size : BitVec 32
  type : Byte
deriving DecidableEq

/-- The functions `tar_parse` puts into its nodes. -/
inductive TarFn where
  | tarRead | tarWrite | tarReaddir | tarFinddir
deriving DecidableEq

/-- What `tar_parse` sets of a `struct vfs_node`. -/
structure TarNode where
  inode : BitVec 32
  flags : BitVec 32
  mask : BitVec 32
  length : BitVec 32
  read : Option TarFn
  write : Option TarFn
  readdir : Option TarFn
  finddir : Option TarFn
deriving DecidableEq

/-- `struct dirent` -/
structure Dirent where
  name : List Byte
  ino : BitVec 32
  type : Byte
deriving DecidableEq

def maxTarFiles : ℕ := 32
def vfsFile : ℕ := 1
def vfsDirectory : ℕ := 2

/-- The static tables, up to `file_count`; the first node is the root. -/
structure Tar where
  fileEntries : List FileEntry
  tarNodes : List TarNode
  tarDirents : List Dirent

/-- `file_count` -/
def Tar.fileCount (t : Tar) : ℕ := t.fileEntries.length

/-- The loop of `parse_octal` with `n` characters left at `val`. -/
def parseOctalLoop (mem : ℕ → Byte) : ℕ → ℕ → BitVec 32 → BitVec 32
  | 0, _, acc => acc
  | n + 1, val, acc =>
      if 0x30 ≤ mem val ∧ mem val ≤ 0x37 then
        parseOctalLoop mem n (val + 1) (acc * 8 + ((mem val).setWidth 32 - 0x30))
      else acc

/-- `parse_octal` -/
def parseOctal (mem : ℕ → Byte) (val size : ℕ) : BitVec 32 := parseOctalLoop mem size val 0

/-- The loop that copies a name, with room for `n` more characters. -/
def copyName (mem : ℕ → Byte) : ℕ → ℕ → List Byte
  | 0, _ => []
  | n + 1, p => if mem p = 0 then [] else mem p :: copyName mem n (p + 1)

/-- `parse_octal(header->size, 11)` -/
def headerSize (mem : ℕ → Byte) (header : BitVec 32) : BitVec 32 :=
  parseOctal mem (header.toNat + 124) 11

/-- `current_address += ((size + 511) / 512 + 1) * 512` -/
def nextHeader (mem : ℕ → Byte) (header : BitVec 32) : BitVec 32 :=
  header + ((headerSize mem header + 511) / 512 + 1) * 512

/-- What the loop records of a header. -/
def recordEntry (mem : ℕ → Byte) (header : BitVec 32) : FileEntry where
  name := copyName mem 127 header.toNat
  address := header + 512
  size := headerSize mem header
  type := mem (header.toNat + 156)

/-- The loop of `tar_parse`, with `fuel` headers to look at. -/
def parseLoop (mem : ℕ → Byte) : ℕ → List FileEntry → BitVec 32 → Option (List FileEntry)
  | 0, _, _ => none
  | fuel + 1, fileEntries, current =>
      if mem current.toNat = 0 then some fileEntries
      else
        parseLoop mem fuel
          (if fileEntries.length < maxTarFiles then fileEntries ++ [recordEntry mem current]
            else fileEntries)
          (nextHeader mem current)

/-- `tar_nodes[0]` -/
def rootNode : TarNode where
  inode := 0
  flags := vfsDirectory
  mask := 0o755
  length := 0
  read := none
  write := none
  readdir := some .tarReaddir
  finddir := some .tarFinddir

/-- `tar_nodes[i + 1]` -/
def fileNode (i : ℕ) (f : FileEntry) : TarNode where
  inode := i
  flags := vfsFile
  mask := 0o644
  length := f.size
  read := some .tarRead
  write := some .tarWrite
  readdir := none
  finddir := none

/-- `tar_dirents[i]` -/
def fileDirent (i : ℕ) (f : FileEntry) : Dirent where
  name := f.name.take 127
  ino := i + 1
  type := vfsFile

/-- The tables after the walk. -/
def tarTables (fileEntries : List FileEntry) : Tar where
  fileEntries := fileEntries
  tarNodes := rootNode :: fileEntries.mapIdx fileNode
  tarDirents := fileEntries.mapIdx fileDirent

/-- `tar_parse` -/
def tarParse (mem : ℕ → Byte) (fuel : ℕ) (address : BitVec 32) : Option Tar :=
  (parseLoop mem fuel [] address).map tarTables

/-- `tar_read`: what it returns, and `buffer` after. -/
def tarRead (t : Tar) (mem : ℕ → Byte) (node : TarNode) (offset size : BitVec 32)
    (buffer : ℕ → Byte) : BitVec 32 × (ℕ → Byte) :=
  match t.fileEntries[node.inode.toNat]? with
  | none => (0, buffer)
  | some f =>
      if f.size ≤ offset then (0, buffer)
      else
        let size := if f.size < offset + size then f.size - offset else size
        (size, copy mem (f.address + offset).toNat buffer size.toNat)

/-- `tar_readdir` -/
def tarReaddir (t : Tar) (index : BitVec 32) : Option Dirent :=
  if t.fileCount ≤ index.toNat then none else t.tarDirents[index.toNat]?

/-- `tar_finddir`; names are compared up to their terminators. -/
def tarFinddir (tar : Tar) (name : List Byte) : Option TarNode := do
  let i ← tar.fileEntries.findIdx? (·.name = name)
  tar.tarNodes[i + 1]?

/-- The headers the walk from `address` looks at. -/
inductive Inspects (mem : ℕ → Byte) (address : BitVec 32) : BitVec 32 → Prop where
  | first : Inspects mem address address
  | next {header : BitVec 32} (h : Inspects mem address header) (hname : mem header.toNat ≠ 0) :
      Inspects mem address (nextHeader mem header)

/-- What holds of every entry the loop records holds of the entries. -/
theorem parseLoop_forall {mem : ℕ → Byte} {address : BitVec 32} {P : FileEntry → Prop}
    (hP : ∀ header, Inspects mem address header → mem header.toNat ≠ 0 →
      P (recordEntry mem header)) {fuel : ℕ} {fs fs' : List FileEntry} {a : BitVec 32}
    (h : parseLoop mem fuel fs a = some fs') (ha : Inspects mem address a)
    (hfs : ∀ f ∈ fs, P f) : ∀ f ∈ fs', P f := by
  induction fuel generalizing fs a with
  | zero => cases h
  | succ fuel ih =>
      rw [parseLoop] at h
      split at h
      · cases h
        exact hfs
      · rename_i hname
        refine ih h (ha.next hname) ?_
        split
        · intro f hf
          rcases List.mem_append.mp hf with hf | hf
          · exact hfs f hf
          · obtain rfl := List.mem_singleton.mp hf
            exact hP a ha hname
        · exact hfs

theorem parseLoop_length {mem : ℕ → Byte} : ∀ {fuel : ℕ} {fs fs' : List FileEntry} {a : BitVec 32},
    parseLoop mem fuel fs a = some fs' → fs.length ≤ maxTarFiles → fs'.length ≤ maxTarFiles
  | fuel + 1, fs, fs', a, h, hfs => by
      rw [parseLoop] at h
      split at h
      · cases h
        exact hfs
      · refine parseLoop_length h ?_
        split
        · rw [List.length_append]
          exact Nat.succ_le_of_lt ‹_›
        · exact hfs

/-- The node of a file and its entry. -/
theorem tarParse_node {mem : ℕ → Byte} {fuel : ℕ} {a : BitVec 32} {tar : Tar}
    (hparse : tarParse mem fuel a = some tar) {i : ℕ} {node : TarNode}
    (hnode : tar.tarNodes[i + 1]? = some node) :
    ∃ f, tar.fileEntries[i]? = some f ∧ node = fileNode i f ∧ node.inode.toNat = i := by
  obtain ⟨fs, hfs, rfl⟩ := Option.map_eq_some_iff.mp hparse
  have hlen := parseLoop_length hfs (Nat.zero_le _)
  rw [tarTables, List.getElem?_cons_succ, List.getElem?_mapIdx] at hnode
  obtain ⟨f, hf, rfl⟩ := Option.map_eq_some_iff.mp hnode
  have hi := (List.getElem?_eq_some_iff.mp hf).1
  simp only [maxTarFiles] at hlen
  exact ⟨f, hf, rfl, Nat.mod_eq_of_lt (show i < 2 ^ 32 by omega)⟩

/-- The step over a header, in 32 bits. -/
theorem toNat_step (size : BitVec 32) : (((size + 511) / 512 + 1) * 512).toNat =
    ((size.toNat + 511) % 2 ^ 32 / 512 + 1) * 512 % 2 ^ 32 := by
  have h511 : (511 : BitVec 32).toNat = 511 := rfl
  have h512 : (512 : BitVec 32).toNat = 512 := rfl
  have h1 : (1 : BitVec 32).toNat = 1 := rfl
  simp only [BitVec.toNat_add, BitVec.toNat_mul, BitVec.toNat_udiv, h511, h512, h1]
  omega

end ZeptoOS.Fs
