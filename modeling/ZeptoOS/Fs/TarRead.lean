import ZeptoOS.Boot.Elf
import ZeptoOS.Fs.TarArchive

/-!
# Fs — TarRead

Reading any range of a file.  `tar_read` cuts the range to the file by a sum of 32 bits, so it keeps
to the file exactly if the sum does not wrap round or the offset is past the end
(`tar_read_bounded_iff`).
-/

namespace ZeptoOS.Fs
open Lib

/-- Memory as the target addresses it. -/
def view (t : Target) (mem : Bytes) : Bytes := fun a => mem (t.ptr a)

/-- A byte of the content of a file. -/
def FileEntry.Content (t : Target) (f : FileEntry) (a : ℕ) : Prop :=
  ∃ j < f.size.toNat, a = t.ptr (f.address.toNat + j)

/-- The addresses that `tar_read` copies from. -/
def tarReads (t : Target) (tar : Tar) (node : TarNode) (offset size : BitVec 32) : List ℕ :=
  match tar.fileEntries[node.inode.toNat]? with
  | none => []
  | some f =>
      if f.size ≤ offset then []
      else
        let size := if f.size < offset + size then f.size - offset else size
        t.bytesAt (f.address + offset).toNat size.toNat

/-- `tar_read` keeps to the file `f`: it returns what is left of it at the offset, up to the size,
and copies that many bytes, which it reads from the content only. -/
structure ReadBounded (t : Target) (mem : Bytes) (tar : Tar) (node : TarNode) (f : FileEntry)
    (offset size : BitVec 32) : Prop where
  result : ∀ buffer, (tarRead tar (view t mem) node offset size buffer).1.toNat =
    if f.size ≤ offset then 0 else min size.toNat (f.size.toNat - offset.toNat)
  reads : ∀ a ∈ tarReads t tar node offset size, f.Content t a
  copies : ∀ buffer k, (tarRead tar (view t mem) node offset size buffer).2 k =
    if k < (tarRead tar (view t mem) node offset size buffer).1.toNat then
      mem (t.ptr (f.address.toNat + offset.toNat + k))
    else buffer k

/-- The range starts past the end, or is empty, or neither sum of 32 bits wraps round: that of the
offset and the size, and, as far as pointers are wider, that of the address and the offset. -/
def RangeExact (t : Target) (f : FileEntry) (offset size : BitVec 32) : Prop :=
  f.size ≤ offset ∨ size = 0 ∨ offset.toNat + size.toNat < 2 ^ 32 ∧
    t.ptr (f.address + offset).toNat = t.ptr (f.address.toNat + offset.toNat)

section Reading

variable {t : Target} {mem : Bytes} {tar : Tar} {node : TarNode} {f : FileEntry}
  {offset size : BitVec 32}

/-- What `tar_read` cuts the size to. -/
theorem tarRead_size (size : BitVec 32) (hoffset : ¬ f.size ≤ offset) :
    (if f.size < offset + size then f.size - offset else size).toNat =
      if offset.toNat + size.toNat < 2 ^ 32 then min size.toNat (f.size.toNat - offset.toNat)
      else size.toNat := by
  rw [BitVec.le_def, Nat.not_le] at hoffset
  have hsize := f.size.isLt
  have hsum : (offset + size).toNat = (offset.toNat + size.toNat) % 2 ^ 32 := BitVec.toNat_add ..
  split
  · rename_i hcut
    rw [BitVec.lt_def] at hcut
    rw [BitVec.toNat_sub_of_le (BitVec.le_def.mpr (Nat.le_of_lt hoffset))]
    split <;> omega
  · rename_i hcut
    rw [BitVec.lt_def] at hcut
    split <;> omega

/-- The pointer that `tar_read` computes misses the content, if it is not that of the offset. -/
theorem not_content_of_wrap (hne : t.ptr (f.address + offset).toNat ≠
    t.ptr (f.address.toNat + offset.toNat)) : ¬ f.Content t (t.ptr (f.address + offset).toNat) := by
  have haddress := f.address.isLt
  have hoffset := offset.isLt
  have hsize := f.size.isLt
  have hsum : (f.address + offset).toNat = (f.address.toNat + offset.toNat) % 2 ^ 32 :=
    BitVec.toNat_add ..
  cases t with
  | i386 => exact absurd (by rw [hsum]; exact Nat.mod_mod _ _) hne
  | x86_64 =>
      rintro ⟨j, hj, e⟩
      simp only [Target.ptr, Target.ptrBits] at hne e
      omega

/-- What `tar_read` copies, where the range starts in the file. -/
theorem tarRead_cut (hf : tar.fileEntries[node.inode.toNat]? = some f) (hoffset : ¬ f.size ≤ offset)
    {n : BitVec 32} (hn : (if f.size < offset + size then f.size - offset else size) = n)
    (buffer : ℕ → Byte) :
    tarRead tar (view t mem) node offset size buffer =
      (n, copy (view t mem) (f.address + offset).toNat buffer n.toNat) := by
  rw [tarRead, hf]
  dsimp only
  rw [if_neg hoffset, hn]

theorem tarReads_cut (hf : tar.fileEntries[node.inode.toNat]? = some f)
    (hoffset : ¬ f.size ≤ offset) {n : BitVec 32}
    (hn : (if f.size < offset + size then f.size - offset else size) = n) :
    tarReads t tar node offset size = t.bytesAt (f.address + offset).toNat n.toNat := by
  rw [tarReads, hf]
  dsimp only
  rw [if_neg hoffset, hn]

/-- Past the end nothing is read. -/
theorem readBounded_past (hf : tar.fileEntries[node.inode.toNat]? = some f)
    (hoffset : f.size ≤ offset) : ReadBounded t mem tar node f offset size := by
  have hread : ∀ buffer, tarRead tar (view t mem) node offset size buffer = (0, buffer) := by
    intro buffer
    rw [tarRead, hf]
    exact if_pos hoffset
  have hreads : tarReads t tar node offset size = [] := by
    rw [tarReads, hf]
    exact if_pos hoffset
  refine ⟨?_, ?_, ?_⟩
  · intro buffer
    rw [hread, if_pos hoffset]
    rfl
  · intro a ha
    rw [hreads] at ha
    exact absurd ha List.not_mem_nil
  · intro buffer k
    rw [hread]
    exact (if_neg (Nat.not_lt_zero k)).symm

/-- A bounded read that starts in the file, and is not empty, has an exact range. -/
theorem ReadBounded.exact (hf : tar.fileEntries[node.inode.toNat]? = some f)
    (hoffset : ¬ f.size ≤ offset) (h : ReadBounded t mem tar node f offset size) :
    RangeExact t f offset size := by
  by_cases hzero : size = 0
  · exact .inr (.inl hzero)
  have hcut := tarRead_size size hoffset
  generalize hn : (if f.size < offset + size then f.size - offset else size) = n at hcut
  have hpos : 0 < size.toNat := Nat.pos_of_ne_zero fun h₀ => hzero (BitVec.eq_of_toNat_eq h₀)
  have hlt := hoffset
  rw [BitVec.le_def, Nat.not_le] at hlt
  have hresult := h.result fun _ => 0
  rw [tarRead_cut hf hoffset hn, if_neg hoffset, hcut] at hresult
  by_cases hwrap : offset.toNat + size.toNat < 2 ^ 32
  · refine .inr (.inr ⟨hwrap, ?_⟩)
    by_contra hne
    rw [if_pos hwrap] at hcut
    refine not_content_of_wrap hne (h.reads _ ?_)
    rw [tarReads_cut hf hoffset hn]
    exact Target.mem_bytesAt.mpr ⟨0, by omega, rfl⟩
  · have hsize := f.size.isLt
    rw [if_neg hwrap] at hresult
    omega

/-- A read of an exact range that starts in the file is bounded. -/
theorem RangeExact.bounded (hf : tar.fileEntries[node.inode.toNat]? = some f)
    (hoffset : ¬ f.size ≤ offset) (h : RangeExact t f offset size) :
    ReadBounded t mem tar node f offset size := by
  have hcut := tarRead_size size hoffset
  generalize hn : (if f.size < offset + size then f.size - offset else size) = n at hcut
  have hexact : offset.toNat + size.toNat < 2 ^ 32 := by
    rcases h with h | rfl | ⟨h, -⟩
    · exact absurd h hoffset
    · exact offset.isLt
    · exact h
  rw [if_pos hexact] at hcut
  -- a byte that is copied is read where the pointer to the content says
  have hat : ∀ k < n.toNat, t.ptr ((f.address + offset).toNat + k) =
      t.ptr (f.address.toNat + offset.toNat + k) := by
    intro k hk
    rcases h with h | rfl | ⟨-, hbase⟩
    · exact absurd h hoffset
    · exact absurd hk (by rw [hcut]; exact Nat.not_lt.mpr (Nat.zero_le k))
    · exact Nat.ModEq.add_right k hbase
  refine ⟨?_, ?_, ?_⟩
  · intro buffer
    rw [tarRead_cut hf hoffset hn, if_neg hoffset, hcut]
  · intro a ha
    rw [tarReads_cut hf hoffset hn] at ha
    obtain ⟨k, hk, rfl⟩ := Target.mem_bytesAt.mp ha
    exact ⟨offset.toNat + k, by omega, by rw [hat k hk, Nat.add_assoc]⟩
  · intro buffer k
    rw [tarRead_cut hf hoffset hn]
    dsimp only
    rw [copy_apply]
    split
    · rename_i hk
      rw [view, hat k hk]
    · rfl

theorem readBounded_iff (hf : tar.fileEntries[node.inode.toNat]? = some f) :
    ReadBounded t mem tar node f offset size ↔ RangeExact t f offset size := by
  by_cases hoffset : f.size ≤ offset
  · exact iff_of_true (readBounded_past hf hoffset) (.inl hoffset)
  · exact ⟨ReadBounded.exact hf hoffset, RangeExact.bounded hf hoffset⟩

/-- **`tar_read` is bounded by the file**, for every file of an archive, exactly where the range is
exact. -/
theorem tar_read_bounded_iff {fuel : ℕ} {address : BitVec 32}
    (hparse : tarParse (view t mem) fuel address = some tar) {i : ℕ}
    (hnode : tar.tarNodes[i + 1]? = some node) :
    ∃ f, tar.fileEntries[i]? = some f ∧ node.length = f.size ∧ ∀ offset size,
      ReadBounded t mem tar node f offset size ↔ RangeExact t f offset size := by
  obtain ⟨f, hf, rfl, hinode⟩ := tarParse_node hparse hnode
  exact ⟨f, hf, rfl, fun offset size => readBounded_iff (by rw [hinode, hf])⟩

end Reading

/-- Memory with an archive of two files that contain `hi`, at `0x100000`. -/
def twoMembers : Bytes := fun a => (archive [hiFile, hiFile]).getD (a - 0x100000) 0

/-- The tables of that archive. -/
def twoMembersTar : Tar := tarTables (archiveEntries 0x100000 [hiFile, hiFile])

theorem length_twoMembers : (archive [hiFile, hiFile]).length = 2560 := by decide +kernel

theorem tarParse_twoMembers {mem : Bytes} (h : Holds mem 0x100000 (archive [hiFile, hiFile])) :
    tarParse mem 3 0x100000 = some twoMembersTar := by
  have hloop : parseLoop mem 3 [] 0x100000 = _ :=
    parseLoop_archive (a := 0x100000) (by decide) h (by rw [length_twoMembers]; decide)
  rw [tarParse, hloop]
  rfl

theorem holds_twoMembers : Holds twoMembers 0x100000 (archive [hiFile, hiFile]) :=
  holds_getD _ 0x100000 0

/-- Bytes below 4 GiB are where the target addresses them. -/
theorem holds_view {t : Target} {mem : Bytes} {p : ℕ} {bs : List Byte} (h : Holds mem p bs)
    (hend : p + bs.length ≤ 2 ^ 32) : Holds (view t mem) p bs := by
  intro k b hb
  have hk := (List.getElem?_eq_some_iff.mp hb).1
  rw [view, t.ptr_of_lt (by omega)]
  exact h k b hb

theorem tarParse_twoMembers_view (t : Target) :
    tarParse (view t twoMembers) 3 0x100000 = some twoMembersTar :=
  tarParse_twoMembers (holds_view holds_twoMembers (by rw [length_twoMembers]; decide))

theorem tar_read_bounded_hi : ∃ node f, twoMembersTar.tarNodes[1]? = some node ∧
    ReadBounded .x86_64 twoMembers twoMembersTar node f 1 5 := by
  obtain ⟨f, hf, -, hiff⟩ := tar_read_bounded_iff (tarParse_twoMembers_view .x86_64) (i := 0) rfl
  obtain rfl : _ = f := Option.some.inj hf
  exact ⟨_, _, rfl, (hiff 1 5).mpr (.inr (.inr (by decide +kernel)))⟩

/-- The rest of `hi` from its second byte on, asked for with the greatest size there is: the sum
wraps round, and 4 GiB are copied. -/
theorem wrapping_read_not_bounded :
    tarParse (view .x86_64 twoMembers) 3 0x100000 = some twoMembersTar ∧
    ∀ node f, twoMembersTar.tarNodes[1]? = some node → twoMembersTar.fileEntries[0]? = some f →
      ¬ ReadBounded .x86_64 twoMembers twoMembersTar node f 1 0xFFFFFFFF := by
  refine ⟨tarParse_twoMembers_view .x86_64, ?_⟩
  intro node f hnode hf h
  obtain rfl : _ = node := Option.some.inj hnode
  obtain rfl : _ = f := Option.some.inj hf
  exact absurd (h.result fun _ => 0) (by decide +kernel)

end ZeptoOS.Fs
