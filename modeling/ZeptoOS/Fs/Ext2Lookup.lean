import ZeptoOS.Fs.Ext2Dir
import ZeptoOS.Fs.Ext2Nodes

/-!
# Fs — Ext2Lookup

Looking up a name in a directory of one block.

`ext2_node_finddir` compares the counted names of the records with its argument, and finds the first
live record of that name (`finddir_exact`).  `ext2_node_readdir` returns 127 bytes of a name at
most, so what it returns is found again exactly if the name is no longer, or its first 127 bytes
name the same inode (`readdir_then_finddir_iff`).
-/

namespace ZeptoOS.Fs
open Lib

/-- A record and its name.  What a deleted record has there does not matter. -/
structure NamedRecord extends DirRecord where
  name : List StrChar
  counted : inode ≠ 0 → name.length = nameLen

/-- The live records from `offset` on have their names after their headers. -/
def NamesAt (buf : ℕ → Byte) : ℕ → List NamedRecord → Prop
  | _, [] => True
  | offset, r :: rs =>
      (r.inode ≠ 0 → Holds buf (offset + 8) (r.name.map Subtype.val)) ∧
        NamesAt buf (offset + r.recLen) rs

/-- A directory of one block, with the names of its records. -/
structure NamedDirectory (E : Ext2) (disk : Disk) (node : ℕ) (inode : Inode)
    (rs : List NamedRecord) : Prop where
  directory : Directory E disk node inode [rs.map NamedRecord.toDirRecord]
  names : NamesAt (E.block disk (inode.block 0)) 0 rs

/-- The first live record of the name. -/
def firstNamed (rs : List NamedRecord) (name : List StrChar) : Option NamedRecord :=
  rs.find? fun r => r.inode ≠ 0 ∧ r.name = name

variable {E : Ext2} {disk : Disk} {inode : Inode}

theorem firstNamed_cons_hit {r : NamedRecord} {name : List StrChar}
    (h : r.inode ≠ 0 ∧ r.name = name) (rs : List NamedRecord) :
    firstNamed (r :: rs) name = some r :=
  List.find?_cons_of_pos (by simpa using h)

theorem firstNamed_cons_miss {r : NamedRecord} {name : List StrChar}
    (h : ¬ (r.inode ≠ 0 ∧ r.name = name)) (rs : List NamedRecord) :
    firstNamed (r :: rs) name = firstNamed rs name :=
  List.find?_cons_of_neg (by simpa using h)

/-! ### Comparing names -/

/-- The comparison from character `i` on, with the characters `cs` of the entry's name to go: it
does not look past the end of the argument, as no character of the entry's is its terminator. -/
theorem matchName_eq {buf : ℕ → Byte} {p : ℕ} {name cs : List StrChar} {i : ℕ}
    (hin : p + i + cs.length ≤ E.blockSize) (hcs : Holds buf (p + i) (cs.map Subtype.val))
    (hi : i ≤ name.length) :
    matchName E buf p name cs.length i = .ok (decide (name.drop i = cs)) := by
  induction cs generalizing i with
  | nil =>
      rw [List.length_nil, matchName, charAt]
      by_cases hlt : i < name.length
      · rw [dif_pos hlt]
        have hdrop : ¬ name.drop i = [] := by rwa [List.drop_eq_nil_iff, Nat.not_le]
        exact congrArg Except.ok (decide_eq_decide.mpr (iff_of_false name[i].2 hdrop))
      · rw [dif_neg hlt, if_pos (by omega)]
        have hdrop : name.drop i = [] := List.drop_eq_nil_iff.mpr (Nat.not_lt.mp hlt)
        exact congrArg Except.ok (decide_eq_decide.mpr (iff_of_true rfl hdrop))
  | cons c cs ih =>
      rw [List.length_cons] at hin
      obtain ⟨hc, hrest⟩ := holds_cons.mp hcs
      rw [List.length_cons, matchName, if_neg (by omega), charAt, hc]
      by_cases hlt : i < name.length
      · have hdrop : name.drop i = name[i] :: name.drop (i + 1) := List.drop_eq_getElem_cons hlt
        rw [dif_pos hlt, hdrop]
        by_cases hsame : c = name[i]
        · have hnext := ih (i := i + 1) (by omega) (by rwa [← Nat.add_assoc]) hlt
          dsimp only
          rw [if_neg (not_not_intro (congrArg Subtype.val hsame)), hnext, hsame]
          exact congrArg Except.ok (decide_eq_decide.mpr (List.cons_inj_right _).symm)
        · have hne : ¬ name[i] :: name.drop (i + 1) = c :: cs :=
            fun h => hsame (List.cons.inj h).1.symm
          dsimp only
          rw [if_pos fun h => hsame (Subtype.ext h), decide_eq_false hne]
      · have hdrop : name.drop i = [] := List.drop_eq_nil_iff.mpr (Nat.not_lt.mp hlt)
        rw [dif_neg hlt, if_pos (by omega), hdrop]
        dsimp only
        -- the terminator differs from every character
        rw [if_pos c.2, decide_eq_false (List.cons_ne_nil c cs).symm]

/-! ### Finding a record -/

/-- What `ext2_node_finddir` returns for an entry of the inode `n`. -/
def foundNode (E : Ext2) (disk : Disk) (n : ℕ) : Except Ext2Fault (Option NodeFields) :=
  match ext2ReadInode E disk n with
  | .error e => .error e
  | .ok target => .ok (some (targetFields n target))

/-- One turn of the loop, at a record of the block. -/
theorem finddirLoop_record (hE : E.Sized) (name : List StrChar) {offset : ℕ} {r : NamedRecord}
    (hsize : offset + r.recLen ≤ inode.size)
    (hr : RecordIn (E.block disk (inode.block 0)) offset r.toDirRecord)
    (hend : offset + r.recLen ≤ E.blockSize)
    (hname : r.inode ≠ 0 →
      Holds (E.block disk (inode.block 0)) (offset + 8) (r.name.map Subtype.val)) :
    finddirLoop E disk inode name offset =
      if r.inode ≠ 0 ∧ r.name = name then foundNode E disk r.inode
      else finddirLoop E disk inode name (offset + r.recLen) := by
  have hlong := r.long
  have hloop := finddirLoop.eq_1 E disk inode name offset
  rw [if_pos (by omega), ext2ReadBlock_eq hE] at hloop
  dsimp only at hloop
  rw [if_neg (by omega), dif_neg (by rw [hr.recLen]; omega), hr.inode, hr.recLen,
    hr.nameLen] at hloop
  rw [hloop]
  by_cases hlive : r.inode = 0
  · rw [if_pos hlive, if_neg fun h => h.1 hlive]
  · have hcount := r.counted hlive
    have hmatch : matchName E _ _ name r.name.length 0 = _ :=
      matchName_eq (by omega) (hname hlive) (Nat.zero_le _)
    rw [hcount, List.drop_zero] at hmatch
    rw [if_neg hlive, if_neg (by omega), hmatch]
    by_cases hsame : name = r.name
    · rw [decide_eq_true hsame, if_pos ⟨hlive, hsame.symm⟩]
      rfl
    · rw [decide_eq_false hsame, if_neg fun h => hsame h.2.symm]

/-- The loop over the records from `offset` on. -/
theorem finddirLoop_spec (hE : E.Sized) (hsize : inode.size = E.blockSize) (name : List StrChar)
    {rs : List NamedRecord} : ∀ {offset : ℕ},
    Tiles (E.block disk (inode.block 0)) E.blockSize offset (rs.map NamedRecord.toDirRecord) →
    NamesAt (E.block disk (inode.block 0)) offset rs →
    finddirLoop E disk inode name offset =
      match firstNamed rs name with
      | some r => foundNode E disk r.inode
      | none => .ok none := by
  induction rs with
  | nil =>
      rintro offset rfl -
      rw [finddirLoop, if_neg (by omega)]
      rfl
  | cons r rs ih =>
      intro offset ⟨hr, hend, htiles⟩ ⟨hname, hnames⟩
      rw [finddirLoop_record hE name (by omega) hr hend hname]
      by_cases hhit : r.inode ≠ 0 ∧ r.name = name
      · rw [if_pos hhit, firstNamed_cons_hit hhit]
      · rw [if_neg hhit, firstNamed_cons_miss hhit]
        exact ih htiles hnames

section Found

variable {node : ℕ} {rs : List NamedRecord} {name : List StrChar}

theorem ext2NodeFinddir_eq (hE : E.Sized) (hdir : NamedDirectory E disk node inode rs) :
    ext2NodeFinddir E disk node name =
      match firstNamed rs name with
      | some r => foundNode E disk r.inode
      | none => .ok none := by
  have hsize := hdir.directory.size
  rw [List.length_singleton, Nat.one_mul] at hsize
  rw [ext2NodeFinddir, hdir.directory.read]
  exact finddirLoop_spec hE hsize name (hdir.directory.tiled 0 _ rfl) hdir.names

/-- A record of the name is found, with the fields of its inode. -/
theorem finddir_found (hE : E.Sized) (hdir : NamedDirectory E disk node inode rs) {r : NamedRecord}
    (hr : firstNamed rs name = some r) : ∃ target, ext2ReadInode E disk r.inode = .ok target ∧
      ext2NodeFinddir E disk node name = .ok (some (targetFields r.inode target)) := by
  have hread := ext2ReadInode_eq hE (ext2ReadInode_group hdir.directory.read) disk r.inode
  refine ⟨_, hread, ?_⟩
  rw [ext2NodeFinddir_eq hE hdir, hr]
  dsimp only
  rw [foundNode, hread]

theorem finddir_missing (hE : E.Sized) (hdir : NamedDirectory E disk node inode rs)
    (hr : firstNamed rs name = none) : ext2NodeFinddir E disk node name = .ok none := by
  rw [ext2NodeFinddir_eq hE hdir, hr]

end Found

/-- `ext2_node_finddir` returns the node of the first live record of the name, or `NULL` if there is
none; an access behind the terminator of the name would be a fault. -/
def FinddirExact (E : Ext2) (disk : Disk) (node : ℕ) (rs : List NamedRecord)
    (name : List StrChar) : Prop :=
  match firstNamed rs name with
  | some r => ∃ target, ext2ReadInode E disk r.inode = .ok target ∧
      ext2NodeFinddir E disk node name = .ok (some (targetFields r.inode target))
  | none => ext2NodeFinddir E disk node name = .ok none

/-- **Lookup is exact.** -/
theorem finddir_exact (hE : E.Sized) {node : ℕ} {rs : List NamedRecord}
    (hdir : NamedDirectory E disk node inode rs) (name : List StrChar) :
    FinddirExact E disk node rs name := by
  rw [FinddirExact]
  split
  · exact finddir_found hE hdir ‹_›
  · exact finddir_missing hE hdir ‹_›

def recordA : NamedRecord := ⟨⟨7, 12, 1, 1, by decide⟩, [charA], fun _ => rfl⟩
def recordB : NamedRecord := ⟨⟨8, 1012, 1, 1, by decide⟩, [charB], fun _ => rfl⟩

theorem twoFiles_directory : NamedDirectory ⟨8, 5, 1024⟩ twoFiles 2
    (slice twoFiles 5248 inodeSize) [recordA, recordB] := by
  refine ⟨⟨by decide +kernel, by decide, by decide +kernel, fun i rs hi => ?_⟩, ?_⟩
  · match i with
    | 0 =>
        obtain rfl := Option.some.inj hi
        refine ⟨⟨?_, ?_, ?_, ?_⟩, ?_, ⟨?_, ?_, ?_, ?_⟩, ?_, rfl⟩ <;> decide +kernel
    | i + 1 => cases hi
  · refine ⟨fun _ => holds_cons.mpr ⟨?_, holds_nil⟩, fun _ => holds_cons.mpr ⟨?_, holds_nil⟩,
      trivial⟩ <;> decide +kernel

/-- The file `b` is found. -/
theorem finddir_exact_second :
    FinddirExact ⟨8, 5, 1024⟩ twoFiles 2 [recordA, recordB] [charB] :=
  finddir_exact (.inl rfl) twoFiles_directory [charB]

/-! ### What `ext2_node_readdir` returns is found again -/

/-- The live records. -/
def namedLive (rs : List NamedRecord) : List NamedRecord := rs.filter fun r => r.inode ≠ 0

/-- What `ext2_node_readdir` returns of a record. -/
def NamedRecord.dirent (r : NamedRecord) : Dirent :=
  ⟨(r.name.take 127).map Subtype.val, BitVec.ofNat 32 r.inode, r.fileType⟩

theorem namedLive_cons {r : NamedRecord} (h : r.inode ≠ 0) (rs : List NamedRecord) :
    namedLive (r :: rs) = r :: namedLive rs :=
  List.filter_cons_of_pos (by simpa using h)

theorem namedLive_cons_dead {r : NamedRecord} (h : ¬ r.inode ≠ 0) (rs : List NamedRecord) :
    namedLive (r :: rs) = namedLive rs :=
  List.filter_cons_of_neg (by simpa using h)

/-- The loop of `ext2_node_readdir` over the records from `offset` on, with their names. -/
theorem readdirLoop_named (hE : E.Sized) (hsize : inode.size = E.blockSize) (index : ℕ)
    {rs : List NamedRecord} : ∀ {offset current : ℕ},
    Tiles (E.block disk (inode.block 0)) E.blockSize offset (rs.map NamedRecord.toDirRecord) →
    NamesAt (E.block disk (inode.block 0)) offset rs → current ≤ index →
    readdirLoop E disk inode index offset current =
      .ok ((namedLive rs)[index - current]?.map NamedRecord.dirent) := by
  induction rs with
  | nil =>
      rintro offset current rfl - -
      rw [readdirLoop, if_neg (by omega)]
      rfl
  | cons r rs ih =>
      rintro offset current ⟨hr, hend, htiles⟩ ⟨hname, hnames⟩ hcurrent
      rw [readdirLoop_record hE index current (by omega) hr hend]
      by_cases hlive : r.inode ≠ 0
      · rw [namedLive_cons hlive]
        rcases Nat.eq_or_lt_of_le hcurrent with rfl | hlt
        · have hslice : slice (E.block disk (inode.block 0)) (offset + 8) (min r.nameLen 127) =
              (r.name.take 127).map Subtype.val := by
            have hcount := r.counted hlive
            rw [(hname hlive).slice_take (by rw [List.length_map]; omega), List.map_take,
              ← hcount, ← List.length_map (f := Subtype.val), Nat.min_comm, ← List.take_eq_take_min]
          rw [if_pos ⟨hlive, rfl⟩, hslice, Nat.sub_self]
          rfl
        · have hindex : index - current = index - (current + 1) + 1 := by omega
          rw [if_neg fun h => hlt.ne h.2, if_pos hlive, hindex, List.getElem?_cons_succ]
          exact ih htiles hnames (Nat.succ_le_of_lt hlt)
      · rw [namedLive_cons_dead hlive, if_neg fun h => hlive h.1, if_neg hlive]
        exact ih htiles hnames hcurrent

theorem ext2NodeReaddir_eq (hE : E.Sized) {node : ℕ} {rs : List NamedRecord}
    (hdir : NamedDirectory E disk node inode rs) (k : ℕ) :
    ext2NodeReaddir E disk node k = .ok ((namedLive rs)[k]?.map NamedRecord.dirent) := by
  have hsize := hdir.directory.size
  rw [List.length_singleton, Nat.one_mul] at hsize
  rw [ext2NodeReaddir, hdir.directory.read]
  exact readdirLoop_named hE hsize k (hdir.directory.tiled 0 _ rfl) hdir.names (Nat.zero_le k)

/-- The number of an inode fits its member. -/
theorem Tiles.inode_lt {buf : ℕ → Byte} {blockSize : ℕ} {r : DirRecord} {rs : List DirRecord} :
    ∀ {offset : ℕ}, Tiles buf blockSize offset rs → r ∈ rs → r.inode < 2 ^ 32 := by
  induction rs with
  | nil => exact fun _ hr => absurd hr List.not_mem_nil
  | cons r' rs ih =>
      rintro offset ⟨hr', -, htiles⟩ hr
      rcases List.mem_cons.mp hr with rfl | hr
      · rw [← hr'.inode]
        exact leAt_lt buf offset 4
      · exact ih htiles hr

/-- The record found is a live one of the name. -/
theorem firstNamed_some {rs : List NamedRecord} {name : List StrChar} {r : NamedRecord}
    (h : firstNamed rs name = some r) : r ∈ namedLive rs ∧ r.name = name := by
  have hr := List.find?_some h
  rw [decide_eq_true_eq] at hr
  exact ⟨List.mem_filter.mpr ⟨List.mem_of_find?_eq_some h, decide_eq_true hr.1⟩, hr.2⟩

/-- A live record is found by its name, if that is of no other. -/
theorem firstNamed_distinct {rs : List NamedRecord} {r : NamedRecord}
    (hdistinct : ((namedLive rs).map NamedRecord.name).Nodup) (hr : r ∈ namedLive rs) :
    firstNamed rs r.name = some r := by
  cases h : firstNamed rs r.name with
  | none =>
      obtain ⟨hmem, hlive⟩ := List.mem_filter.mp hr
      exact absurd (decide_eq_true ⟨of_decide_eq_true hlive, rfl⟩) (List.find?_eq_none.mp h r hmem)
  | some r' =>
      obtain ⟨hr', hname⟩ := firstNamed_some h
      rw [List.inj_on_of_nodup_map hdistinct hr' hr hname]

/-- `ext2_node_finddir` finds an entry that `ext2_node_readdir` returned, by its name: the node is
of the inode returned. -/
def FoundAgain (E : Ext2) (disk : Disk) (node : ℕ) (d : Dirent) : Prop :=
  ∃ (name : List StrChar) (f : NodeFields), name.map Subtype.val = d.name ∧
    ext2NodeFinddir E disk node name = .ok (some f) ∧ f.inode = d.ino.toNat

/-- The name of record `k` has at most 127 bytes, or its first 127 bytes are the name of a live
record of the same inode. -/
def NameReturned (rs : List NamedRecord) (k : ℕ) : Prop :=
  ∃ r, (namedLive rs)[k]? = some r ∧ (r.name.length ≤ 127 ∨
    ∃ r' ∈ namedLive rs, r'.name = r.name.take 127 ∧ r'.inode = r.inode)

/-- **Enumeration and lookup.**  In a directory of one block with distinct names, the entry that
`ext2_node_readdir` returns is found again exactly if its name was returned whole, or what was
returned of it is another name of its inode. -/
theorem readdir_then_finddir_iff (hE : E.Sized) {node : ℕ} {rs : List NamedRecord}
    (hdir : NamedDirectory E disk node inode rs)
    (hdistinct : ((namedLive rs).map NamedRecord.name).Nodup) {k : ℕ} {d : Dirent}
    (hd : ext2NodeReaddir E disk node k = .ok (some d)) :
    FoundAgain E disk node d ↔ NameReturned rs k := by
  rw [ext2NodeReaddir_eq hE hdir] at hd
  obtain ⟨r, hr, rfl⟩ := Option.map_eq_some_iff.mp (Except.ok.inj hd)
  have hino : r.dirent.ino.toNat = r.inode := by
    refine Nat.mod_eq_of_lt ((hdir.directory.tiled 0 _ rfl).inode_lt ?_)
    exact List.mem_map_of_mem (List.mem_of_mem_filter (List.mem_of_getElem? hr))
  constructor
  · rintro ⟨name, f, hname, hfind, hf⟩
    obtain rfl : name = r.name.take 127 :=
      List.map_injective_iff.mpr Subtype.val_injective hname
    refine ⟨r, hr, .inr ?_⟩
    cases hr' : firstNamed rs (r.name.take 127) with
    | some r' =>
        obtain ⟨target, -, hfound⟩ := finddir_found hE hdir hr'
        obtain ⟨hlive, hname'⟩ := firstNamed_some hr'
        rw [hfound] at hfind
        cases hfind
        exact ⟨r', hlive, hname', hf.trans hino⟩
    | none =>
        rw [finddir_missing hE hdir hr'] at hfind
        cases hfind
  · rintro ⟨r₁, hr₁, hkept⟩
    obtain rfl := Option.some.inj (hr.symm.trans hr₁)
    -- a name that is returned whole is found at its own record
    have hother : ∃ r' ∈ namedLive rs, r'.name = r.name.take 127 ∧ r'.inode = r.inode := by
      rcases hkept with hshort | hother
      · exact ⟨r, List.mem_of_getElem? hr, (List.take_of_length_le hshort).symm, rfl⟩
      · exact hother
    obtain ⟨r', hlive, hname, hinode⟩ := hother
    obtain ⟨target, -, hfound⟩ := finddir_found hE hdir (firstNamed_distinct hdistinct hlive)
    exact ⟨_, _, congrArg _ hname, hfound, hinode.trans hino.symm⟩

/-- The file `b` is found by the name that was returned. -/
theorem readdir_then_finddir_second : FoundAgain ⟨8, 5, 1024⟩ twoFiles 2 recordB.dirent :=
  (readdir_then_finddir_iff (.inl rfl) twoFiles_directory (by decide) (k := 1)
    (ext2NodeReaddir_eq (.inl rfl) twoFiles_directory 1)).mpr ⟨recordB, rfl, .inl (by decide)⟩

/-- An image whose root directory has a file with a name of 128 characters. -/
def longName : Disk := fun a =>
  if a = 5253 then 4 else if a = 5288 then 10
  else if a = 10240 then 7 else if a = 10245 then 4 else if a = 10246 then 128
  else if a = 10247 then 1 else if 10248 ≤ a ∧ a < 10376 then 0x61 else twoGroups a

def longRecord : NamedRecord :=
  ⟨⟨7, 1024, 128, 1, by decide⟩, List.replicate 128 charA, fun _ => List.length_replicate⟩

theorem longName_mount : ext2Mount longName = .ok (some ⟨8, 5, 1024⟩) := by
  decide +kernel

theorem longName_directory : NamedDirectory ⟨8, 5, 1024⟩ longName 2
    (slice longName 5248 inodeSize) [longRecord] := by
  have hblock : Inode.block (slice longName 5248 inodeSize) 0 = 10 := by decide +kernel
  have hstart : Ext2.blockStart ⟨8, 5, 1024⟩ 10 = 10240 := by decide +kernel
  refine ⟨⟨by decide +kernel, by decide, by decide +kernel, fun i rs hi => ?_⟩,
    fun _ k b hb => ?_, trivial⟩
  · match i with
    | 0 =>
        obtain rfl := Option.some.inj hi
        refine ⟨⟨?_, ?_, ?_, ?_⟩, ?_, rfl⟩ <;> decide +kernel
    | i + 1 => cases hi
  · rw [longRecord, List.map_replicate, List.getElem?_replicate] at hb
    split at hb
    · obtain rfl := Option.some.inj hb
      rw [hblock, Ext2.block_apply (.inl rfl) longName 10 (by dsimp only; omega), hstart, longName,
        if_neg (by omega), if_neg (by omega), if_neg (by omega), if_neg (by omega),
        if_neg (by omega), if_neg (by omega), if_pos (by omega)]
      rfl
    · cases hb

/-- A name of 128 characters is cut, and not found again. -/
theorem long_name_not_found_again :
    ¬ ∀ (disk : Disk) (E : Ext2) (node : ℕ) (inode : Inode) (rs : List NamedRecord) (k : ℕ)
      (d : Dirent), ext2Mount disk = .ok (some E) → E.Sized →
      NamedDirectory E disk node inode rs → ((namedLive rs).map NamedRecord.name).Nodup →
      ext2NodeReaddir E disk node k = .ok (some d) → FoundAgain E disk node d := by
  intro hall
  obtain ⟨name, f, hname, hfind, -⟩ := hall longName _ 2 _ [longRecord] 0 _ longName_mount
    (.inl rfl) longName_directory (by decide) (ext2NodeReaddir_eq (.inl rfl) longName_directory 0)
  obtain rfl : name = longRecord.name.take 127 :=
    List.map_injective_iff.mpr Subtype.val_injective hname
  rw [finddir_missing (.inl rfl) longName_directory (by decide +kernel)] at hfind
  cases hfind

end ZeptoOS.Fs
