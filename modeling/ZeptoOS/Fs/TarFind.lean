import ZeptoOS.Fs.TarArchive
import ZeptoOS.Fs.Vfs
import ZeptoOS.Lib.Fuel

/-!
# Fs — TarFind

Lookup in an archive: the names that `tar_parse` copies out of the headers, and `tar_finddir`,
which compares them character by character.

A name field has 100 bytes, and no terminator where the name fills it; `tar_parse` copies up to 127
characters, and so goes on into the mode (`NamedMember.entry_name`).  A lookup is exact where the
first member it can meet has no such name (`finds_exactly_iff`).
-/

namespace ZeptoOS.Fs
open Lib

/-- The comparison of `tar_finddir`: `match` at its end, and both strings at their terminators. -/
def nameMatches : List Byte → List StrChar → Bool
  | [], [] => true
  | [], _ :: _ => false
  | _ :: _, [] => false
  | f :: fname, c :: name => if f ≠ c.1 then false else nameMatches fname name

/-- The loop of `tar_finddir`, over the entries from index `i` on. -/
def findLoop (name : List StrChar) : List FileEntry → ℕ → Option ℕ
  | [], _ => none
  | f :: fileEntries, i =>
      if nameMatches f.name name then some i else findLoop name fileEntries (i + 1)

/-- `tar_finddir`, with its loops. -/
def tarFinddirLoops (tar : Tar) (name : List StrChar) : Option TarNode :=
  (findLoop name tar.fileEntries 0).bind fun i => tar.tarNodes[i + 1]?

/-- A member called `name`: the rest of the name field is zero. -/
structure NamedMember extends Member where
  name : List StrChar
  name_ne : name ≠ []
  name_le : name.length ≤ 100
  field : header.take 100 = name.map (·.1) ++ List.replicate (100 - name.length) 0

/-- The string at the start of a header, as far as `tar_parse` looks. -/
def Member.nameString (m : Member) : List Byte := (m.header.take 127).takeWhile (· ≠ 0)

/-- The name fills its field, and there is no terminator behind it. -/
def NamedMember.RunsOn (m : NamedMember) : Prop :=
  m.name.length = 100 ∧ m.header[100]? ≠ some 0

/-! ### The loops -/

theorem nameMatches_iff {fname : List Byte} {name : List StrChar} :
    nameMatches fname name = true ↔ fname = name.map (·.1) := by
  induction fname generalizing name with
  | nil => cases name <;> simp [nameMatches]
  | cons f fname ih =>
      cases name with
      | nil => simp [nameMatches]
      | cons c name =>
          rw [nameMatches, List.map_cons, List.cons.injEq]
          by_cases hf : f = c.1
          · simp [hf, ih]
          · simp [hf]

theorem findLoop_eq (name : List StrChar) (fs : List FileEntry) (i : ℕ) :
    findLoop name fs i = (fs.findIdx? (·.name = name.map (·.1))).map (· + i) := by
  induction fs generalizing i with
  | nil => rfl
  | cons f fs ih =>
      rw [findLoop, List.findIdx?_cons]
      by_cases hf : f.name = name.map (·.1)
      · rw [if_pos (nameMatches_iff.mpr hf), if_pos (by simpa using hf), Option.map_some,
          Nat.zero_add]
      · have hmatch : ¬ nameMatches f.name name = true := fun h => hf (nameMatches_iff.mp h)
        rw [if_neg hmatch, ih, if_neg (by simpa using hf), Option.map_map]
        refine congrArg (Option.map · _) (funext fun k => ?_)
        change k + (i + 1) = k + 1 + i
        omega

/-- The loops find the entry whose name is the string. -/
theorem tarFinddirLoops_eq (tar : Tar) (name : List StrChar) :
    tarFinddirLoops tar name = tarFinddir tar (name.map (·.1)) := by
  rw [tarFinddirLoops, findLoop_eq, tarFinddir]
  simp

/-! ### The names recorded -/

section Names

variable {m : NamedMember} {a : ℕ} {s : List StrChar}

/-- **The name recorded** goes on behind the field, where the name fills it. -/
theorem NamedMember.nameString_eq (m : NamedMember) :
    m.nameString = m.name.map (·.1) ++
      if m.name.length = 100 then ((m.header.drop 100).take 27).takeWhile (· ≠ 0) else [] := by
  have hchars : ∀ b ∈ m.name.map (·.1), (decide (b ≠ 0)) = true := by
    intro b hb
    obtain ⟨c, -, rfl⟩ := List.mem_map.mp hb
    exact decide_eq_true c.2
  have hsplit : m.header.take 127 = m.header.take 100 ++ (m.header.drop 100).take 27 :=
    List.take_add (i := 100) (j := 27)
  rw [Member.nameString, hsplit, m.field, List.append_assoc, List.takeWhile_append_of_pos hchars]
  congr 1
  split
  · rename_i hfull
    rw [hfull, Nat.sub_self, List.replicate_zero, List.nil_append]
  · rename_i hshort
    have hle := m.name_le
    obtain ⟨k, hk⟩ := Nat.exists_eq_succ_of_ne_zero (show 100 - m.name.length ≠ 0 by omega)
    rw [hk, List.replicate_succ, List.cons_append]
    rfl

/-- A name is recorded as it is, exactly if it does not run on. -/
theorem NamedMember.nameString_iff (m : NamedMember) :
    m.nameString = m.name.map (·.1) ↔ ¬ m.RunsOn := by
  have hlen := m.header_length
  have hhead : m.header.drop 100 = m.header[100] :: m.header.drop 101 :=
    List.drop_eq_getElem_cons (by omega)
  have hget : m.header[100]? = some m.header[100] := List.getElem?_eq_getElem (by omega)
  rw [m.nameString_eq, List.append_right_eq_self, NamedMember.RunsOn, hget, hhead,
    List.take_succ_cons, List.takeWhile_cons]
  by_cases hfull : m.name.length = 100
  · by_cases hmode : m.header[100] = 0 <;> simp [hfull, hmode]
  · simp [hfull]

theorem archiveEntries_names (ms : List Member) (a : ℕ) :
    (archiveEntries a ms).map (·.name) = ms.map Member.nameString := by
  induction ms generalizing a with
  | nil => rfl
  | cons m ms ih =>
      rw [archiveEntries, List.map_cons, List.map_cons, ih]
      rfl

end Names

/-! ### Lookup -/

/-- A lookup of `s` finds the node of the first member called `s`, and `NULL` exactly if no member
is called so. -/
structure FindsExactly (t : Tar) (ms : List NamedMember) (s : List StrChar) : Prop where
  first : ∀ i, ms.findIdx? (·.name = s) = some i →
    ∃ node, t.tarNodes[i + 1]? = some node ∧ tarFinddirLoops t s = some node
  null : tarFinddirLoops t s = none ↔ ∀ m ∈ ms, m.name ≠ s

/-- The name of the first member that is called `s`, or has `s` at the start of its header, does not
run on. -/
def FirstEnds (ms : List NamedMember) (s : List StrChar) : Prop :=
  ∀ m, ms.find? (fun m => m.name = s ∨ m.nameString = s.map (·.1)) = some m → ¬ m.RunsOn

/-- Two searches end at the same place, if what is first found by either is found by both. -/
theorem findIdx?_eq_iff {A : Type*} {p q : A → Prop} [DecidablePred p] [DecidablePred q]
    (l : List A) :
    l.findIdx? (p ·) = l.findIdx? (q ·) ↔
      ∀ a, l.find? (fun a => p a ∨ q a) = some a → p a ∧ q a := by
  induction l with
  | nil => simp
  | cons a l ih =>
      rw [List.findIdx?_cons, List.findIdx?_cons, List.find?_cons]
      by_cases hp : p a <;> by_cases hq : q a
      · simp [hp, hq]
      · simp [hp, hq]
      · simp [hp, hq]
      · simp only [hp, hq, decide_false, or_self, Bool.false_eq_true, if_false]
        rw [← ih]
        exact (Option.map_injective fun _ _ => Nat.succ.inj).eq_iff

section Lookup

variable {a : ℕ} {ms : List NamedMember} {s : List StrChar}

/-- Where a lookup in the tables of an archive ends. -/
theorem tarFinddirLoops_archive (a : ℕ) (ms : List NamedMember) (s : List StrChar) :
    tarFinddirLoops (tarTables (archiveEntries a (ms.map (·.toMember)))) s =
      (ms.findIdx? (·.nameString = s.map (·.1))).bind fun i =>
        (tarTables (archiveEntries a (ms.map (·.toMember)))).tarNodes[i + 1]? := by
  have hnames := archiveEntries_names (ms.map (·.toMember)) a
  rw [List.map_map] at hnames
  have hidx : (archiveEntries a (ms.map (·.toMember))).findIdx? (·.name = s.map (·.1)) =
      ms.findIdx? (·.nameString = s.map (·.1)) := by
    have hmap := congrArg (List.findIdx? fun n => decide (n = s.map (·.1))) hnames
    rwa [List.findIdx?_map, List.findIdx?_map] at hmap
  rw [tarFinddirLoops_eq, tarFinddir, Option.bind_eq_bind]
  exact congrArg (Option.bind · _) hidx

/-- The nodes of an archive are told apart by their inode numbers. -/
theorem tarNodes_archive (a : ℕ) (hcount : ms.length ≤ maxTarFiles) {i : ℕ} (hi : i < ms.length) :
    ∃ node, (tarTables (archiveEntries a (ms.map (·.toMember)))).tarNodes[i + 1]? = some node ∧
      node.inode.toNat = i := by
  have hlen : i < (archiveEntries a (ms.map (·.toMember))).length := by
    rwa [length_archiveEntries, List.length_map]
  refine ⟨fileNode i (archiveEntries a (ms.map (·.toMember)))[i], ?_, ?_⟩
  · rw [tarTables, List.getElem?_cons_succ, List.getElem?_mapIdx, List.getElem?_eq_getElem hlen]
    rfl
  · simp only [maxTarFiles] at hcount
    exact Nat.mod_eq_of_lt (show i < 2 ^ 32 by omega)

/-- So indices of members are the same if the nodes at them are. -/
theorem bind_tarNodes_inj (a : ℕ) (hcount : ms.length ≤ maxTarFiles) {o o' : Option ℕ}
    (ho : ∀ i, o = some i → i < ms.length) (ho' : ∀ i, o' = some i → i < ms.length) :
    (o.bind fun i => (tarTables (archiveEntries a (ms.map (·.toMember)))).tarNodes[i + 1]?) =
        (o'.bind fun i => (tarTables (archiveEntries a (ms.map (·.toMember)))).tarNodes[i + 1]?) ↔
      o = o' := by
  constructor
  · intro h
    cases o with
    | none =>
        cases o' with
        | none => rfl
        | some j =>
            obtain ⟨node, hnode, -⟩ := tarNodes_archive a hcount (ho' j rfl)
            rw [Option.bind_none, Option.bind_some, hnode] at h
            cases h
    | some i =>
        obtain ⟨node, hnode, hinode⟩ := tarNodes_archive a hcount (ho i rfl)
        rw [Option.bind_some, hnode] at h
        obtain ⟨j, rfl, hj⟩ := Option.bind_eq_some_iff.mp h.symm
        obtain ⟨node', hnode', hinode'⟩ := tarNodes_archive a hcount (ho' j rfl)
        obtain rfl := Option.some.inj (hj.symm.trans hnode')
        rw [← hinode, ← hinode']
  · rintro rfl
    rfl

theorem lt_of_findIdx? {A : Type*} {p : A → Bool} {l : List A} {i : ℕ}
    (h : l.findIdx? p = some i) : i < l.length :=
  (List.findIdx?_eq_some_iff_getElem.mp h).1

/-- An exact lookup ends at the node of the first member of that name. -/
theorem findsExactly_iff_node (a : ℕ) (hcount : ms.length ≤ maxTarFiles) (s : List StrChar) :
    FindsExactly (tarTables (archiveEntries a (ms.map (·.toMember)))) ms s ↔
      (ms.findIdx? (·.name = s)).bind
          (fun i => (tarTables (archiveEntries a (ms.map (·.toMember)))).tarNodes[i + 1]?) =
        tarFinddirLoops (tarTables (archiveEntries a (ms.map (·.toMember)))) s := by
  have hnone : ms.findIdx? (·.name = s) = none ↔ ∀ m ∈ ms, m.name ≠ s := by
    simp [List.findIdx?_eq_none_iff]
  cases hname : ms.findIdx? (·.name = s) with
  | none =>
      rw [Option.bind_none]
      constructor
      · intro h
        exact (h.null.mpr (hnone.mp hname)).symm
      · intro h
        refine ⟨?_, iff_of_true h.symm (hnone.mp hname)⟩
        intro i hi
        cases hname.symm.trans hi
  | some i =>
      obtain ⟨node, hnode, -⟩ := tarNodes_archive a hcount (lt_of_findIdx? hname)
      have hsome : ¬ ∀ m ∈ ms, m.name ≠ s := by
        intro hall
        cases hname.symm.trans (hnone.mpr hall)
      rw [Option.bind_some]
      constructor
      · intro h
        obtain ⟨_, hnode', hfound⟩ := h.first i hname
        exact hnode'.trans hfound.symm
      · intro h
        have hfound := h.symm.trans hnode
        refine ⟨?_, iff_of_false (by rw [hfound]; exact Option.some_ne_none node) hsome⟩
        intro j hj
        cases hname.symm.trans hj
        exact ⟨node, hnode, hfound⟩

theorem findsExactly_iff (a : ℕ) (hcount : ms.length ≤ maxTarFiles) (s : List StrChar) :
    FindsExactly (tarTables (archiveEntries a (ms.map (·.toMember)))) ms s ↔
      ms.findIdx? (·.name = s) = ms.findIdx? (·.nameString = s.map (·.1)) := by
  rw [findsExactly_iff_node a hcount, tarFinddirLoops_archive]
  exact bind_tarNodes_inj a hcount (fun _ => lt_of_findIdx?) fun _ => lt_of_findIdx?

/-- A member is called `s` and recorded as `s` exactly if one of both holds, and it does not run
on. -/
theorem firstEnds_iff :
    FirstEnds ms s ↔ ms.findIdx? (·.name = s) = ms.findIdx? (·.nameString = s.map (·.1)) := by
  rw [findIdx?_eq_iff]
  refine forall_congr' fun m => forall_congr' fun hm => ?_
  have hor : m.name = s ∨ m.nameString = s.map (·.1) := by simpa using List.find?_some hm
  constructor
  · intro hends
    have hsame := m.nameString_iff.mpr hends
    rcases hor with rfl | hstr
    · exact ⟨rfl, hsame⟩
    · refine ⟨?_, hstr⟩
      rw [hsame] at hstr
      exact List.map_injective_iff.mpr Subtype.val_injective hstr
  · rintro ⟨rfl, hstr⟩
    exact m.nameString_iff.mp hstr

theorem firstEnds_of_ends (h : ∀ m ∈ ms, ¬ m.RunsOn) (s : List StrChar) : FirstEnds ms s :=
  fun m hm => h m (List.mem_of_find?_eq_some hm)

/-- A name that runs on is found under what it runs on to, which is no member's name. -/
theorem not_firstEnds_of_runsOn {m : NamedMember} (hm : m ∈ ms) (h : m.RunsOn) :
    ∃ s, ¬ FirstEnds ms s := by
  have hchars : ∀ b ∈ m.nameString, b ≠ 0 := fun b hb =>
    of_decide_eq_true (List.all_eq_true.mp List.all_takeWhile b hb)
  obtain ⟨s, hs⟩ : ∃ s : List StrChar, s.map (·.1) = m.nameString :=
    CanLift.prf m.nameString hchars
  refine ⟨s, fun hends => ?_⟩
  have hlong : 100 < s.length := by
    have hlen := congrArg List.length (hs.trans m.nameString_eq)
    have hrest := mt m.nameString_iff.mp (not_not_intro h)
    rw [m.nameString_eq, List.append_right_eq_self] at hrest
    have hpos := List.length_pos_iff.mpr hrest
    rw [List.length_map, List.length_append, List.length_map] at hlen
    have hfull := h.1
    omega
  cases hfind : ms.find? (fun m => m.name = s ∨ m.nameString = s.map (·.1)) with
  | none => simpa [hs] using List.find?_eq_none.mp hfind m hm
  | some m' =>
      have hle := m'.name_le
      have hor : m'.name = s ∨ m'.nameString = s.map (·.1) := by
        simpa using List.find?_some hfind
      have hsame := m'.nameString_iff.mpr (hends m' hfind)
      have hname : m'.name = s := by
        refine hor.resolve_right fun hstr => ?_
        have hlen := congrArg List.length (hsame.symm.trans hstr)
        rw [List.length_map, List.length_map] at hlen
        omega
      rw [hname] at hle
      omega

/-- The tables of an archive of at most 32 members. -/
theorem tarParse_archive {address : BitVec 32} {mem : ℕ → Byte} (hcount : ms.length ≤ maxTarFiles)
    (hend : address.toNat + (archive (ms.map (·.toMember))).length ≤ 2 ^ 32)
    (hmem : Holds mem address.toNat (archive (ms.map (·.toMember)))) :
    Returns (fun fuel => tarParse mem fuel address)
      (tarTables (archiveEntries address.toNat (ms.map (·.toMember)))) := by
  refine ⟨(ms.map (·.toMember)).length + 1, fun fuel hfuel => ?_⟩
  have haddress : BitVec.ofNat 32 address.toNat = address := BitVec.ofNat_toNat ..
  have hloop : parseLoop mem fuel [] (BitVec.ofNat 32 address.toNat) = _ :=
    parseLoop_archive hfuel hmem hend
  have hall : (archiveEntries address.toNat (ms.map (·.toMember))).take maxTarFiles =
      archiveEntries address.toNat (ms.map (·.toMember)) :=
    List.take_of_length_le (by rwa [length_archiveEntries, List.length_map])
  rw [haddress, List.nil_append, List.length_nil, Nat.sub_zero, hall] at hloop
  exact congrArg (Option.map tarTables) hloop

/-- **Lookup in an archive.**  A lookup is exact exactly if the first member it can meet has a
terminator behind its name; all lookups are, exactly if every member has. -/
theorem finds_exactly_iff (address : BitVec 32) (mem : ℕ → Byte) (ms : List NamedMember)
    (hcount : ms.length ≤ 32)
    (hend : address.toNat + (archive (ms.map (·.toMember))).length ≤ 2 ^ 32)
    (hmem : Holds mem address.toNat (archive (ms.map (·.toMember)))) :
    ∃ t, Returns (fun fuel => tarParse mem fuel address) t ∧
      (∀ s, FindsExactly t ms s ↔ FirstEnds ms s) ∧
      ((∀ s, FindsExactly t ms s) ↔ ∀ m ∈ ms, ¬ m.RunsOn) := by
  have hexact : ∀ s, FindsExactly (tarTables (archiveEntries address.toNat _)) ms s ↔
      FirstEnds ms s := fun s => (findsExactly_iff _ hcount s).trans firstEnds_iff.symm
  refine ⟨_, tarParse_archive hcount hend hmem, hexact, ?_⟩
  rw [forall_congr' hexact]
  constructor
  · intro hall m hm hrun
    obtain ⟨s, hs⟩ := not_firstEnds_of_runsOn hm hrun
    exact hs (hall s)
  · exact firstEnds_of_ends

end Lookup

theorem letterA_ne : (0x61 : BitVec 8) ≠ 0 := by decide
theorem letterB_ne : (0x62 : BitVec 8) ≠ 0 := by decide

def letterA : StrChar := ⟨0x61, letterA_ne⟩
def letterB : StrChar := ⟨0x62, letterB_ne⟩

/-- The file `a` of `hiFile`. -/
def hiNamed : NamedMember where
  toMember := hiFile
  name := [letterA]
  name_ne := List.cons_ne_nil _ _
  name_le := by decide
  field := by decide +kernel

/-- The file `b` of `twoBlocks`. -/
def twoBlocksNamed : NamedMember where
  toMember := twoBlocks
  name := [letterB]
  name_ne := List.cons_ne_nil _ _
  name_le := by decide
  field := by decide +kernel

/-- An empty file with a name of 100 times `a`, and the mode `0000644`. -/
def longNamed : NamedMember where
  header := List.replicate 100 0x61 ++
    ([0x30, 0x30, 0x30, 0x30, 0x36, 0x34, 0x34, 0] ++
      (List.replicate 16 0 ++ (octalField 11 0 ++ List.replicate 377 0)))
  content := []
  padding := []
  header_length := by decide +kernel
  named := by decide +kernel
  sized := by decide +kernel
  size_lt := by decide +kernel
  padding_lt := by decide +kernel
  aligned := by decide +kernel
  name := List.replicate 100 letterA
  name_ne := by decide +kernel
  name_le := by decide +kernel
  field := by decide +kernel

/-- Four files, of which the second has the long name, and the last the name of the first. -/
def severalNamed : List NamedMember := [hiNamed, longNamed, twoBlocksNamed, hiNamed]

/-- The files with short names are found, behind the long one too, and the long one is not. -/
theorem finds_exactly_several :
    ∃ mem t node₁ node₃, Returns (fun fuel => tarParse mem fuel 0x100000) t ∧
      t.tarNodes[1]? = some node₁ ∧ tarFinddirLoops t [letterA] = some node₁ ∧
      t.tarNodes[3]? = some node₃ ∧ tarFinddirLoops t [letterB] = some node₃ ∧
      ¬ FindsExactly t severalNamed longNamed.name := by
  have hend : (0x100000 : BitVec 32).toNat + (archive (severalNamed.map (·.toMember))).length ≤
      2 ^ 32 := by
    rw [archive_blocks]
    decide +kernel
  obtain ⟨t, hparse, hfinds, -⟩ := finds_exactly_iff 0x100000 _ severalNamed (by decide) hend
    (holds_getD (archive (severalNamed.map (·.toMember))) _ 0)
  have hA : FirstEnds severalNamed [letterA] := firstEnds_iff.mpr (by decide +kernel)
  have hB : FirstEnds severalNamed [letterB] := firstEnds_iff.mpr (by decide +kernel)
  have hlong : ¬ FirstEnds severalNamed longNamed.name :=
    mt firstEnds_iff.mp (by decide +kernel)
  obtain ⟨node₁, hnode₁, hfound₁⟩ := ((hfinds _).mpr hA).first 0 (by decide +kernel)
  obtain ⟨node₃, hnode₃, hfound₃⟩ := ((hfinds _).mpr hB).first 2 (by decide +kernel)
  exact ⟨_, t, node₁, node₃, hparse, hnode₁, hfound₁, hnode₃, hfound₃, mt (hfinds _).mp hlong⟩

/-- The long name is recorded with the mode behind it, and not found. -/
theorem long_name_not_found :
    ¬ ∀ (address : BitVec 32) (mem : ℕ → Byte) (ms : List NamedMember) (s : List StrChar) (t : Tar),
      ms.length ≤ 32 → address.toNat + (archive (ms.map (·.toMember))).length ≤ 2 ^ 32 →
      Holds mem address.toNat (archive (ms.map (·.toMember))) →
      Returns (fun fuel => tarParse mem fuel address) t → FindsExactly t ms s := by
  intro hall
  have hend : (0x100000 : BitVec 32).toNat + (archive ([longNamed].map (·.toMember))).length ≤
      2 ^ 32 := by decide +kernel
  have hholds := holds_getD (archive ([longNamed].map (·.toMember))) (0x100000 : BitVec 32).toNat 0
  have hcount : [longNamed].length ≤ maxTarFiles := by decide
  have hfirst := (findsExactly_iff _ hcount longNamed.name).mp
    (hall 0x100000 _ [longNamed] longNamed.name _ hcount hend hholds
      (tarParse_archive hcount hend hholds))
  have hruns : longNamed.RunsOn := ⟨by decide +kernel, by decide +kernel⟩
  refine firstEnds_iff.mpr hfirst longNamed ?_ hruns
  rw [List.find?_cons_of_pos (by simp)]

end ZeptoOS.Fs
