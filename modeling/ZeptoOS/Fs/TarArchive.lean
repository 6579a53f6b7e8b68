import ZeptoOS.Fs.Tar

/-!
# Fs — TarArchive

The layout of an archive, and that `tar_parse` inverts it.  A `Member` is a header and a content
padded to blocks, and an `archive` is its members and a zero block.

`parseOctal_octalField` reads a size field back, `nextHeader_member` is the step over one member,
and `parseLoop_archive` the walk over an archive, which records the first 32 members only but
walks over all of them.
-/

namespace ZeptoOS.Fs
open Lib

/-- `n` octal digits of `v`, zero-padded. -/
def octalField : ℕ → ℕ → List Byte
  | 0, _ => []
  | n + 1, v => BitVec.ofNat 8 (0x30 + v / 8 ^ n) :: octalField n (v % 8 ^ n)

/-- A regular member. -/
structure Member where
  header : List Byte
  content : List Byte
  padding : List Byte
  header_length : header.length = 512
  /-- The name is not empty. -/
  named : header[0]? ≠ some 0
  /-- The size field is the length of the content. -/
  sized : (header.drop 124).take 11 = octalField 11 content.length
  size_lt : content.length < 8 ^ 11
  padding_lt : padding.length < 512
  aligned : (content.length + padding.length) % 512 = 0

namespace Member

/-- A member in the archive. -/
def bytes (m : Member) : List Byte := m.header ++ m.content ++ m.padding

/-- What `tar_parse` has to record of a member at `a`. -/
def entry (m : Member) (a : ℕ) : FileEntry where
  name := (m.header.take 127).takeWhile (· ≠ 0)
  address := BitVec.ofNat 32 (a + 512)
  size := BitVec.ofNat 32 m.content.length
  type := m.header.getD 156 0

end Member

/-- The members, then a zero block. -/
def archive : List Member → List Byte
  | [] => List.replicate 512 0
  | m :: ms => m.bytes ++ archive ms

/-- What `tar_parse` has to record of an archive at `a`. -/
def archiveEntries : ℕ → List Member → List FileEntry
  | _, [] => []
  | a, m :: ms => m.entry a :: archiveEntries (a + m.bytes.length) ms

theorem length_archive (ms : List Member) : 512 ≤ (archive ms).length := by
  induction ms with
  | nil => exact Nat.le_of_eq (List.length_replicate ..).symm
  | cons m ms ih =>
      rw [archive, List.length_append]
      omega

/-! ### Reading one header -/

section Header

variable {mem : ℕ → Byte}

/-- The digits of a size field add up. -/
theorem parseOctalLoop_octalField :
    ∀ {n p v : ℕ} (acc : ℕ), v < 8 ^ n → Holds mem p (octalField n v) →
      parseOctalLoop mem n p (BitVec.ofNat 32 acc) = BitVec.ofNat 32 (acc * 8 ^ n + v)
  | 0, _, v, acc, hv, _ => by
      have hv₀ : v = 0 := by omega
      rw [parseOctalLoop, hv₀, pow_zero, Nat.mul_one, Nat.add_zero]
  | n + 1, p, v, acc, hv, h => by
      obtain ⟨hd, hrest⟩ := holds_cons.mp h
      have hdigit : v / 8 ^ n < 8 := Nat.div_lt_of_lt_mul (by rwa [← pow_succ])
      have hchar : (mem p).toNat = 0x30 + v / 8 ^ n := by
        rw [hd, BitVec.toNat_ofNat, Nat.mod_eq_of_lt (by omega)]
      have hacc : BitVec.ofNat 32 acc * 8 + ((mem p).setWidth 32 - 0x30) =
          BitVec.ofNat 32 (acc * 8 + v / 8 ^ n) := by
        have hwide : (mem p).setWidth 32 = BitVec.ofNat 32 (0x30 + v / 8 ^ n) := by
          rw [← hchar, BitVec.ofNat_toNat]
        rw [hwide, BitVec.ofNat_add, BitVec.ofNat_add, BitVec.ofNat_mul]
        exact congrArg _ (add_sub_cancel_left _ _)
      have hlow : v % 8 ^ n < 8 ^ n := Nat.mod_lt _ (Nat.pow_pos (by decide))
      have hsum : (acc * 8 + v / 8 ^ n) * 8 ^ n + v % 8 ^ n = acc * 8 ^ (n + 1) + v := by
        rw [Nat.add_mul, Nat.mul_assoc, ← pow_succ', Nat.add_assoc, Nat.mul_comm (v / 8 ^ n),
          Nat.div_add_mod]
      have hrange : 0x30 ≤ mem p ∧ mem p ≤ 0x37 := by
        rw [BitVec.le_def, BitVec.le_def, hchar]
        exact ⟨Nat.le_add_right _ _, Nat.add_le_add_left (Nat.le_of_lt_succ hdigit) 0x30⟩
      rw [parseOctalLoop, if_pos hrange, hacc, parseOctalLoop_octalField _ hlow hrest, hsum]

/-- **A size field reads back.** -/
theorem parseOctal_octalField {n p v : ℕ} (hv : v < 8 ^ n) (h : Holds mem p (octalField n v)) :
    parseOctal mem p n = BitVec.ofNat 32 v := by
  have hloop := parseOctalLoop_octalField 0 hv h
  rwa [Nat.zero_mul, Nat.zero_add] at hloop

theorem copyName_holds :
    ∀ {n p : ℕ} {bs : List Byte}, Holds mem p bs → n ≤ bs.length →
      copyName mem n p = (bs.take n).takeWhile (· ≠ 0)
  | 0, _, _, _, _ => by rw [copyName, List.take_zero, List.takeWhile_nil]
  | n + 1, p, [], _, hlen => absurd hlen (Nat.not_succ_le_zero n)
  | n + 1, p, b :: bs, h, hlen => by
      obtain ⟨hb, hbs⟩ := holds_cons.mp h
      rw [copyName, hb, List.take_succ_cons, List.takeWhile_cons]
      by_cases h₀ : b = 0
      · rw [if_pos h₀, if_neg (by simpa using h₀)]
      · rw [if_neg h₀, if_pos (by simpa using h₀),
          copyName_holds hbs (Nat.le_of_succ_le_succ hlen)]

end Header

/-! ### Walking over the members -/

section Walk

variable {mem : ℕ → Byte} {m : Member} {a : ℕ}

theorem Member.length_bytes (m : Member) :
    m.bytes.length = 512 * ((m.content.length + 511) / 512 + 1) := by
  have hpad := m.padding_lt
  have hal := m.aligned
  rw [Member.bytes, List.length_append, List.length_append, m.header_length]
  omega

/-- The blocks of an archive: those of each member, and the zero block. -/
theorem archive_blocks (ms : List Member) :
    (archive ms).length = 512 * ((ms.map fun m => (m.content.length + 511) / 512 + 1).sum + 1) := by
  induction ms with
  | nil => exact List.length_replicate ..
  | cons m ms ih =>
      rw [archive, List.length_append, ih, m.length_bytes, List.map_cons, List.sum_cons]
      omega

/-- What a member at `a` puts where the walk reads. -/
theorem Member.holds (m : Member) (h : Holds mem a m.bytes) :
    Holds mem a m.header ∧ Holds mem (a + 512) m.content := by
  obtain ⟨hh, -⟩ := holds_append.mp h
  rw [holds_append, m.header_length] at hh
  exact hh

theorem Member.name_ne (m : Member) (h : Holds mem a m.bytes) : mem a ≠ 0 := by
  intro h₀
  have hlen := m.header_length
  have hhead := (m.holds h).1 0 m.header[0] (List.getElem?_eq_getElem (by omega))
  refine m.named ?_
  rw [List.getElem?_eq_getElem (by omega), ← hhead]
  exact congrArg some h₀

theorem headerSize_member (h : Holds mem a m.bytes) (ha : a < 2 ^ 32) :
    headerSize mem (BitVec.ofNat 32 a) = BitVec.ofNat 32 m.content.length := by
  have hsplit := List.take_append_drop 124 m.header
  have hfield := List.take_append_drop 11 (m.header.drop 124)
  rw [m.sized] at hfield
  have hheader := (m.holds h).1
  rw [← hsplit, ← hfield, holds_append, holds_append, List.length_take, m.header_length] at hheader
  rw [headerSize, BitVec.toNat_ofNat, Nat.mod_eq_of_lt ha]
  exact parseOctal_octalField m.size_lt hheader.2.1

/-- **The step over a member.**  The walk goes on behind it, where the archive ends below
4 GiB. -/
theorem nextHeader_member (h : Holds mem a m.bytes) (ha : a + m.bytes.length + 512 ≤ 2 ^ 32) :
    nextHeader mem (BitVec.ofNat 32 a) = BitVec.ofNat 32 (a + m.bytes.length) := by
  have hlen := m.length_bytes
  have hsize : (BitVec.ofNat 32 m.content.length).toNat = m.content.length :=
    Nat.mod_eq_of_lt (by omega)
  rw [nextHeader, headerSize_member h (by omega)]
  apply BitVec.eq_of_toNat_eq
  rw [BitVec.toNat_add, toNat_step, hsize, BitVec.toNat_ofNat, BitVec.toNat_ofNat]
  omega

theorem recordEntry_member (h : Holds mem a m.bytes) (ha : a < 2 ^ 32) :
    recordEntry mem (BitVec.ofNat 32 a) = m.entry a := by
  have hheader := (m.holds h).1
  have hlen := m.header_length
  have hat : (BitVec.ofNat 32 a).toNat = a := Nat.mod_eq_of_lt ha
  have htype : mem (a + 156) = m.header.getD 156 0 := by
    rw [List.getD_eq_getElem?_getD, List.getElem?_eq_getElem (by omega)]
    exact hheader 156 _ (List.getElem?_eq_getElem _)
  have haddress : BitVec.ofNat 32 a + 512 = BitVec.ofNat 32 (a + 512) :=
    (BitVec.ofNat_add ..).symm
  rw [recordEntry, Member.entry, headerSize_member h ha, hat, htype, haddress,
    copyName_holds hheader (by omega)]

theorem archive_cons_holds {ms : List Member} (h : Holds mem a (archive (m :: ms))) :
    Holds mem a m.bytes ∧ Holds mem (a + m.bytes.length) (archive ms) :=
  holds_append.mp h

theorem archive_nil_holds (h : Holds mem a (archive [])) : mem a = 0 := by
  refine h 0 0 ?_
  rw [archive, List.getElem?_replicate]
  exact if_pos (Nat.zero_lt_succ 511)

/-- **The walk over an archive.**  It records members while there is room, and ends at the zero
block. -/
theorem parseLoop_archive {ms : List Member} {fuel : ℕ} {files : List FileEntry}
    (hfuel : ms.length < fuel) (h : Holds mem a (archive ms))
    (hend : a + (archive ms).length ≤ 2 ^ 32) :
    parseLoop mem fuel files (BitVec.ofNat 32 a) =
      some (files ++ (archiveEntries a ms).take (maxTarFiles - files.length)) := by
  have hblock := length_archive ms
  have ha : a < 2 ^ 32 := by omega
  have hat : (BitVec.ofNat 32 a).toNat = a := Nat.mod_eq_of_lt ha
  induction ms generalizing a fuel files with
  | nil =>
      obtain ⟨fuel, rfl⟩ := Nat.exists_eq_succ_of_ne_zero (Nat.ne_zero_of_lt hfuel)
      rw [parseLoop, hat, if_pos (archive_nil_holds h), archiveEntries, List.take_nil,
        List.append_nil]
  | cons m ms ih =>
      obtain ⟨fuel, rfl⟩ := Nat.exists_eq_succ_of_ne_zero (Nat.ne_zero_of_lt hfuel)
      obtain ⟨hm, hms⟩ := archive_cons_holds h
      have hblock' := length_archive ms
      rw [archive, List.length_append] at hend
      have ha' : a + m.bytes.length < 2 ^ 32 := by omega
      rw [parseLoop, hat, if_neg (m.name_ne hm), nextHeader_member hm (by omega),
        recordEntry_member hm ha, archiveEntries,
        ih (Nat.lt_of_succ_lt_succ hfuel) hms (by omega) hblock' ha' (Nat.mod_eq_of_lt ha')]
      split
      · -- there is room: the member goes to the end
        rename_i hroom
        have htake : maxTarFiles - files.length =
            maxTarFiles - (files ++ [m.entry a]).length + 1 := by
          rw [List.length_append, List.length_singleton]
          omega
        rw [htake, List.take_succ_cons, List.append_assoc, List.singleton_append]
      · rename_i hfull
        rw [Nat.sub_eq_zero_of_le (Nat.not_lt.mp hfull), List.take_zero, List.take_zero]

theorem length_archiveEntries (a : ℕ) (ms : List Member) :
    (archiveEntries a ms).length = ms.length := by
  induction ms generalizing a with
  | nil => rfl
  | cons m ms ih => rw [archiveEntries, List.length_cons, ih, List.length_cons]

/-- Where member `i` of an archive lies. -/
theorem archive_member {ms : List Member} {i : ℕ} (hi : ms[i]? = some m)
    (h : Holds mem a (archive ms)) :
    ∃ p, (archiveEntries a ms)[i]? = some (m.entry p) ∧ Holds mem p m.bytes ∧
      p + m.bytes.length + 512 ≤ a + (archive ms).length := by
  induction ms generalizing a i with
  | nil => cases hi
  | cons m' ms ih =>
      obtain ⟨hm, hms⟩ := archive_cons_holds h
      rw [archive, List.length_append]
      cases i with
      | zero =>
          obtain rfl := Option.some.inj hi
          have hblock := length_archive ms
          exact ⟨a, rfl, hm, by omega⟩
      | succ i =>
          obtain ⟨p, he, hp, hle⟩ := ih hi hms
          exact ⟨p, he, hp, by omega⟩

/-- **A read of a member**, of a range inside it. -/
theorem tarRead_member {t : Tar} {node : TarNode} {p : ℕ}
    (hentry : t.fileEntries[node.inode.toNat]? = some (m.entry p))
    (hp : p + m.bytes.length + 512 ≤ 2 ^ 32) {offset size : BitVec 32}
    (hin : offset.toNat + size.toNat ≤ m.content.length) (buffer : ℕ → Byte) :
    tarRead t mem node offset size buffer =
      (size, copy mem (p + 512 + offset.toNat) buffer size.toNat) := by
  have hlen := m.length_bytes
  have hsize : (BitVec.ofNat 32 m.content.length).toNat = m.content.length :=
    Nat.mod_eq_of_lt (by omega)
  have hsrc : (BitVec.ofNat 32 (p + 512) + offset).toNat = p + 512 + offset.toNat := by
    rw [BitVec.toNat_add, BitVec.toNat_ofNat]
    omega
  have hsum : (offset + size).toNat = offset.toNat + size.toNat := by
    rw [BitVec.toNat_add]
    omega
  rw [tarRead, hentry]
  dsimp only [Member.entry]
  by_cases hle : BitVec.ofNat 32 m.content.length ≤ offset
  · -- at the end of the content only an empty range is left
    rw [BitVec.le_def, hsize] at hle
    have hempty : size.toNat = 0 := by omega
    have hzero : size = 0 := BitVec.eq_of_toNat_eq hempty
    rw [if_pos (by rwa [BitVec.le_def, hsize]), hempty, copy, hzero]
  · rw [if_neg hle, if_neg (by rw [BitVec.lt_def, hsize, hsum]; omega), hsrc]

end Walk

/-- **`tar_parse` inverts the archive layout.**  For every address and every archive that ends below
4 GiB, it terminates and makes a node for each of the first 32 members, in order; the node has the
length of the content, and reading a range of it copies just that range of the content. -/
theorem tar_parse_archive (address : BitVec 32) (mem : ℕ → Byte) (ms : List Member)
    (hend : address.toNat + (archive ms).length ≤ 2 ^ 32)
    (hmem : Holds mem address.toNat (archive ms)) :
    ∃ t, (∃ n, ∀ fuel ≥ n, tarParse mem fuel address = some t) ∧
      t.fileCount = min ms.length 32 ∧ t.tarNodes.length = t.fileCount + 1 ∧
      ∀ i m, i < 32 → ms[i]? = some m → ∃ node, t.tarNodes[i + 1]? = some node ∧
        node.length.toNat = m.content.length ∧ node.read = some .tarRead ∧
        ∀ (offset size : BitVec 32) (buffer : ℕ → Byte),
          offset.toNat + size.toNat ≤ m.content.length →
          (tarRead t mem node offset size buffer).1 = size ∧
          Holds (tarRead t mem node offset size buffer).2 0
            ((m.content.drop offset.toNat).take size.toNat) ∧
          ∀ k ≥ size.toNat, (tarRead t mem node offset size buffer).2 k = buffer k := by
  have haddress : BitVec.ofNat 32 address.toNat = address := BitVec.ofNat_toNat ..
  have hcount : (tarTables ((archiveEntries address.toNat ms).take 32)).fileCount =
      min ms.length 32 := by
    rw [Tar.fileCount, tarTables, List.length_take, length_archiveEntries, Nat.min_comm]
  refine ⟨_, ⟨ms.length + 1, fun fuel hfuel => ?_⟩, hcount, ?_, fun i m hi hm => ?_⟩
  · have hloop : parseLoop mem fuel [] (BitVec.ofNat 32 address.toNat) = _ :=
      parseLoop_archive hfuel hmem hend
    rw [haddress] at hloop
    rw [tarParse, hloop]
    rfl
  · rw [Tar.fileCount, tarTables, List.length_cons, List.length_mapIdx]
  · obtain ⟨p, he, hp, hle⟩ := archive_member hm hmem
    have hentry : ((archiveEntries address.toNat ms).take 32)[i]? = some (m.entry p) := by
      rw [List.getElem?_take, if_pos hi, he]
    have hlen := m.length_bytes
    refine ⟨fileNode i (m.entry p), ?_, Nat.mod_eq_of_lt (by omega), rfl,
      fun offset size buffer hin => ?_⟩
    · rw [tarTables, List.getElem?_cons_succ, List.getElem?_mapIdx, hentry]
      rfl
    · have hinode : (fileNode i (m.entry p)).inode.toNat = i := Nat.mod_eq_of_lt (by omega)
      rw [tarRead_member (by rw [hinode]; exact hentry) (by omega) hin]
      exact ⟨rfl, copy_holds (m.holds hp).2 _ _ buffer,
        fun k hk => (copy_apply ..).trans (if_neg (Nat.not_lt.mpr hk))⟩

/-- A file `a` that contains `hi`. -/
def hiFile : Member where
  header := 0x61 :: (List.replicate 123 0 ++ octalField 11 2 ++ List.replicate 377 0)
  content := [0x68, 0x69]
  padding := List.replicate 510 0
  header_length := by decide +kernel
  named := by decide +kernel
  sized := by decide +kernel
  size_lt := by decide +kernel
  padding_lt := by decide +kernel
  aligned := by decide +kernel

/-- A file `b` of two blocks. -/
def twoBlocks : Member where
  header := 0x62 :: (List.replicate 123 0 ++ octalField 11 600 ++ List.replicate 377 0)
  content := List.replicate 600 0x42
  padding := List.replicate 424 0
  header_length := by decide +kernel
  named := by decide +kernel
  sized := by decide +kernel
  size_lt := by decide +kernel
  padding_lt := by decide +kernel
  aligned := by decide +kernel

/-- One member more than `tar_parse` records. -/
def manyMembers : List Member := hiFile :: twoBlocks :: List.replicate 31 hiFile

/-- The second file is read across its first block, and the last member has no node. -/
theorem tar_parse_archive_many :
    ∃ mem t node, (∃ n, ∀ fuel ≥ n, tarParse mem fuel 0x100000 = some t) ∧
      t.tarNodes.length = 33 ∧ t.tarNodes[2]? = some node ∧ node.length.toNat = 600 ∧
      (tarRead t mem node 500 50 fun _ => 0).1 = 50 ∧
      Holds (tarRead t mem node 500 50 fun _ => 0).2 0 (List.replicate 50 0x42) := by
  have hend : (0x100000 : BitVec 32).toNat + (archive manyMembers).length ≤ 2 ^ 32 := by
    rw [archive_blocks]
    decide +kernel
  obtain ⟨t, hparse, hcount, hlength, hnodes⟩ :=
    tar_parse_archive 0x100000 _ manyMembers hend (holds_getD (archive manyMembers) _ 0)
  obtain ⟨node, hnode, hsize, -, hread⟩ := hnodes 1 twoBlocks (by decide) rfl
  obtain ⟨hreturned, hcopied, -⟩ := hread 500 50 (fun _ => 0) (by decide +kernel)
  have hrange : (twoBlocks.content.drop (500 : BitVec 32).toNat).take (50 : BitVec 32).toNat =
      List.replicate 50 0x42 := by decide +kernel
  rw [hcount] at hlength
  rw [hrange] at hcopied
  exact ⟨_, t, node, hparse, hlength, hnode, hsize.trans (List.length_replicate ..), hreturned,
    hcopied⟩

end ZeptoOS.Fs
