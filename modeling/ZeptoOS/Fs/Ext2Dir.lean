import ZeptoOS.Fs.Ext2Inode

/-!
# Fs — Ext2Dir

Enumerating a directory.

`ext2_node_readdir` reads the first block of a directory in every turn, and goes on past its end as
far as the directory is long.  So it finds the entry of an index exactly if the directory is of one
block, or the entry is in the first (`readdir_finds_iff`).
-/

namespace ZeptoOS.Fs
open Lib

/-- A record of a directory, long enough for its header and its name. -/
structure DirRecord where
  inode : ℕ
  recLen : ℕ
  nameLen : ℕ
  fileType : Byte
  long : 8 + nameLen ≤ recLen

/-- The record at `offset` of a block buffer. -/
structure RecordIn (buf : ℕ → Byte) (offset : ℕ) (r : DirRecord) : Prop where
  inode : entryInode buf offset = r.inode
  recLen : entryRecLen buf offset = r.recLen
  nameLen : entryNameLen buf offset = r.nameLen
  fileType : entryFileType buf offset = r.fileType

/-- From `offset` on the records follow each other to the end of the block. -/
def Tiles (buf : ℕ → Byte) (blockSize : ℕ) : ℕ → List DirRecord → Prop
  | offset, [] => offset = blockSize
  | offset, r :: rs =>
      RecordIn buf offset r ∧ offset + r.recLen ≤ blockSize ∧
        Tiles buf blockSize (offset + r.recLen) rs

/-- The records that are not deleted. -/
def live (rs : List DirRecord) : List DirRecord := rs.filter fun r => r.inode ≠ 0

/-- `d` is the entry of the record `r`. -/
def EntryOf (r : DirRecord) (d : Dirent) : Prop :=
  d.ino = BitVec.ofNat 32 r.inode ∧ d.type = r.fileType

/-- A directory of one to twelve blocks, with the records of each. -/
structure Directory (E : Ext2) (disk : Disk) (node : ℕ) (inode : Inode)
    (blocks : List (List DirRecord)) : Prop where
  read : ext2ReadInode E disk node = .ok inode
  length : 1 ≤ blocks.length ∧ blocks.length ≤ 12
  size : inode.size = blocks.length * E.blockSize
  tiled : ∀ i rs, blocks[i]? = some rs → Tiles (E.block disk (inode.block i)) E.blockSize 0 rs

variable {E : Ext2} {disk : Disk} {inode : Inode}

theorem live_cons_dead {r : DirRecord} (h : r.inode = 0) (rs : List DirRecord) :
    live (r :: rs) = live rs :=
  List.filter_cons_of_neg (by simpa using h)

theorem live_cons {r : DirRecord} (h : r.inode ≠ 0) (rs : List DirRecord) :
    live (r :: rs) = r :: live rs :=
  List.filter_cons_of_pos (by simpa using h)

theorem live_append (rs rs' : List DirRecord) : live (rs ++ rs') = live rs ++ live rs' :=
  List.filter_append _ _

/-- One turn of the loop, at a record of the first block. -/
theorem readdirLoop_record (hE : E.Sized) (index current : ℕ) {offset : ℕ} {r : DirRecord}
    (hsize : offset + r.recLen ≤ inode.size)
    (hr : RecordIn (E.block disk (inode.block 0)) offset r)
    (hend : offset + r.recLen ≤ E.blockSize) :
    readdirLoop E disk inode index offset current =
      if r.inode ≠ 0 ∧ current = index then
        .ok (some ⟨slice (E.block disk (inode.block 0)) (offset + 8) (min r.nameLen 127),
          BitVec.ofNat 32 r.inode, r.fileType⟩)
      else
        readdirLoop E disk inode index (offset + r.recLen)
          (if r.inode ≠ 0 then current + 1 else current) := by
  have hlong := r.long
  have hmin : min r.nameLen 127 ≤ r.nameLen := Nat.min_le_left _ _
  have hloop := readdirLoop.eq_1 E disk inode index offset current
  rw [if_pos (by omega), ext2ReadBlock_eq hE] at hloop
  dsimp only at hloop
  rw [if_neg (by omega), dif_neg (by rw [hr.recLen]; omega), hr.inode, hr.recLen,
    hr.nameLen, if_neg (by omega : ¬ E.blockSize < offset + 8 + min r.nameLen 127),
    hr.fileType] at hloop
  exact hloop

/-- The loop finds the entry among the records from `offset` on, and past them there is nothing if
the directory is of one block, and what the buffer never held if it is not. -/
theorem readdirLoop_spec (hE : E.Sized) (hsize : E.blockSize ≤ inode.size) (index : ℕ)
    {rs : List DirRecord} : ∀ {offset current : ℕ},
    Tiles (E.block disk (inode.block 0)) E.blockSize offset rs → current ≤ index →
    (∀ r, (live rs)[index - current]? = some r → ∃ d, EntryOf r d ∧
      readdirLoop E disk inode index offset current = .ok (some d)) ∧
    ((live rs)[index - current]? = none → readdirLoop E disk inode index offset current =
      if inode.size = E.blockSize then .ok none else .error .outside) := by
  induction rs with
  | nil =>
      -- the first block is over, and only its bytes are in the buffer
      rintro offset current rfl _
      refine ⟨fun r hr => (by cases hr), fun _ => ?_⟩
      rw [readdirLoop]
      split
      · rw [ext2ReadBlock_eq hE]
        dsimp only
        rw [if_pos (by omega), if_neg (by omega)]
      · rw [if_pos (by omega)]
  | cons r rs ih =>
      intro offset current ⟨hr, hend, htiles⟩ hcurrent
      rw [readdirLoop_record hE index current (by omega) hr hend]
      by_cases hlive : r.inode ≠ 0
      · rw [live_cons hlive]
        rcases Nat.eq_or_lt_of_le hcurrent with rfl | hlt
        · rw [Nat.sub_self]
          refine ⟨fun x hx => ?_, fun h => (by cases h)⟩
          obtain rfl := Option.some.inj hx
          exact ⟨_, ⟨rfl, rfl⟩, if_pos ⟨hlive, rfl⟩⟩
        · have hrest := ih htiles (Nat.succ_le_of_lt hlt)
          have hindex : index - current = index - (current + 1) + 1 := by omega
          rw [if_neg fun h => hlt.ne h.2, if_pos hlive, hindex, List.getElem?_cons_succ]
          exact hrest
      · rw [live_cons_dead (not_not.mp hlive), if_neg fun h => hlive h.1, if_neg hlive]
        exact ih htiles hcurrent

/-- `ext2_node_readdir` returns the inode and the type of the entry `k` over all the blocks, or
`NULL` if there is no such entry. -/
def ReaddirFinds (E : Ext2) (disk : Disk) (node : ℕ) (blocks : List (List DirRecord)) (k : ℕ) :
    Prop :=
  match (live blocks.flatten)[k]? with
  | some r => ∃ d, EntryOf r d ∧ ext2NodeReaddir E disk node k = .ok (some d)
  | none => ext2NodeReaddir E disk node k = .ok none

/-- What `ext2_node_readdir` makes of the records of the first block. -/
theorem readdir_spec (hE : E.Sized) {node : ℕ} {first : List DirRecord}
    {rest : List (List DirRecord)} (hdir : Directory E disk node inode (first :: rest)) (k : ℕ) :
    (∀ r, (live first)[k]? = some r → ∃ d, EntryOf r d ∧
      ext2NodeReaddir E disk node k = .ok (some d)) ∧
    ((live first)[k]? = none → ext2NodeReaddir E disk node k =
      if rest = [] then .ok none else .error .outside) := by
  have hpos := hE.sectors.2.2
  have hsize := hdir.size
  rw [List.length_cons, Nat.succ_mul] at hsize
  have hspec := readdirLoop_spec hE (by omega) k (hdir.tiled 0 first rfl) (Nat.zero_le k)
  have hone : inode.size = E.blockSize ↔ rest = [] := by
    rw [← List.length_eq_zero_iff, hsize]
    constructor
    · intro h
      exact (Nat.mul_eq_zero.mp (by omega)).resolve_right (Nat.ne_of_gt hpos)
    · intro h
      rw [h, Nat.zero_mul, Nat.zero_add]
  rw [Nat.sub_zero] at hspec
  simp only [hone] at hspec
  rw [ext2NodeReaddir, hdir.read]
  exact hspec

/-- **Directory enumeration.**  `ext2_node_readdir` finds the entry of index `k` over all the blocks
of a directory exactly if it has one block, or `k` is below the number of entries in the first. -/
theorem readdir_finds_iff (hE : E.Sized) {node : ℕ} {first : List DirRecord}
    {rest : List (List DirRecord)} (hdir : Directory E disk node inode (first :: rest)) (k : ℕ) :
    ReaddirFinds E disk node (first :: rest) k ↔ rest = [] ∨ k < (live first).length := by
  obtain ⟨hfound, hnone⟩ := readdir_spec hE hdir k
  rw [ReaddirFinds, List.flatten_cons, live_append]
  by_cases hk : k < (live first).length
  · rw [List.getElem?_append_left hk, List.getElem?_eq_getElem hk]
    exact iff_of_true (hfound _ (List.getElem?_eq_getElem hk)) (.inr hk)
  · have hpast : (live first)[k]? = none := List.getElem?_eq_none (Nat.not_lt.mp hk)
    by_cases hrest : rest = []
    · subst hrest
      have hnil : live [] = [] := rfl
      rw [List.flatten_nil, hnil, List.append_nil, hpast]
      exact iff_of_true ((hnone hpast).trans (if_pos rfl)) (.inl rfl)
    · refine iff_of_false ?_ (not_or.mpr ⟨hrest, hk⟩)
      rw [hnone hpast, if_neg hrest]
      split
      · rintro ⟨d, -, h⟩
        cases h
      · exact fun h => by cases h

/-- An image whose root directory has a record for each of its blocks 10 and 11. -/
def twoBlockDir : Disk := fun a =>
  if a = 5253 then 8 else if a = 5288 then 10 else if a = 5292 then 11
  else if a = 10240 then 2 else if a = 10245 then 4 else if a = 10246 then 1
  else if a = 10247 then 2 else if a = 10248 then 0x2E
  else if a = 11264 then 7 else if a = 11269 then 4 else if a = 11270 then 1
  else if a = 11271 then 1 else if a = 11272 then 0x61
  else twoGroups a

def dotRecord : DirRecord := ⟨2, 1024, 1, 2, by decide⟩
def fileRecord : DirRecord := ⟨7, 1024, 1, 1, by decide⟩

theorem twoBlockDir_mount : ext2Mount twoBlockDir = .ok (some ⟨8, 5, 1024⟩) := by
  decide +kernel

theorem twoBlockDir_directory :
    Directory ⟨8, 5, 1024⟩ twoBlockDir 2 (slice twoBlockDir 5248 inodeSize)
      [[dotRecord], [fileRecord]] := by
  refine ⟨by decide +kernel, by decide, by decide +kernel, fun i rs hi => ?_⟩
  match i with
  | 0 =>
      obtain rfl := Option.some.inj hi
      refine ⟨⟨?_, ?_, ?_, ?_⟩, ?_, rfl⟩ <;> decide +kernel
  | 1 =>
      obtain rfl := Option.some.inj hi
      refine ⟨⟨?_, ?_, ?_, ?_⟩, ?_, rfl⟩ <;> decide +kernel
  | i + 2 => cases hi

/-- The entry of the first block is found. -/
theorem readdir_finds_first :
    ReaddirFinds ⟨8, 5, 1024⟩ twoBlockDir 2 [[dotRecord], [fileRecord]] 0 :=
  (readdir_finds_iff (.inl rfl) twoBlockDir_directory 0).mpr (.inr (by decide))

/-- For the entry of the second block the walk leaves the bytes read. -/
theorem second_block_not_found :
    ¬ ∀ (disk : Disk) (E : Ext2) (node : ℕ) (inode : Inode) (blocks : List (List DirRecord))
      (k : ℕ), ext2Mount disk = .ok (some E) → E.Sized → Directory E disk node inode blocks →
      ReaddirFinds E disk node blocks k := by
  intro hall
  obtain ⟨d, -, hd⟩ := hall twoBlockDir _ 2 _ _ 1 twoBlockDir_mount (.inl rfl) twoBlockDir_directory
  rw [(readdir_spec (.inl rfl) twoBlockDir_directory 1).2 rfl] at hd
  cases hd

end ZeptoOS.Fs
