import ZeptoOS.Boot.Elf

/-!
# Boot — ElfImage

What `elf_load` builds of an image that can be loaded: a segment for each of its `PT_LOAD` headers,
of the bytes of the file and then zeros, and nothing else (`elf_load_builds_image`).

The headers and the file's bytes are read from the memory that the segments are stored to.  The
invariant of the loops is that the image stands as it did.
-/

namespace ZeptoOS
open Lib

/-! ### The headers of an image -/

/-- The size of the header. -/
def Target.ehdrSize : Target → ℕ
  | .i386 => 52
  | .x86_64 => 64

section Headers

variable (t : Target) (mem : Bytes) (elf i : ℕ)

/-- What the two functions check of the header. -/
def HeaderAccepted : Prop :=
  match t with
  | .i386 => Target.i386.le mem elf 4 = elfMagic
  | .x86_64 => Target.x86_64.le mem elf 4 = elfMagic ∧ Target.x86_64.le mem (elf + 4) 1 = 2 ∧
      Target.x86_64.le mem (elf + 18) 2 = 0x3E

/-- `header->e_entry` -/
def entryPoint : BitVec t.ptrBits := t.long mem (elf + 24)

/-- `header->e_phoff` -/
def phoff : ℕ := (t.long mem (elf + t.ePhoff)).toNat

/-- The address of `program_headers[i]`. -/
def phdrAt : ℕ := phdr t (programHeaders t mem elf) i

/-- `program_headers[i].p_type` is `PT_LOAD`. -/
def IsLoad : Prop := t.le mem (phdrAt t mem elf i) 4 = 1

/-- `p_offset`, `p_vaddr`, `p_filesz` and `p_memsz` of `program_headers[i]`. -/
def segOffset : ℕ := (t.long mem (phdrAt t mem elf i + t.pOffset)).toNat
def segVaddr : ℕ := (t.long mem (phdrAt t mem elf i + t.pVaddr)).toNat
def segFilesz : ℕ := (t.long mem (phdrAt t mem elf i + t.pFilesz)).toNat
def segMemsz : ℕ := (t.long mem (phdrAt t mem elf i + t.pMemsz)).toNat

/-- The number of program headers. -/
def segments : ℕ := (phnum t mem elf).toNat

/-- A byte of the segment `i` in memory. -/
def SegmentByte (a : ℕ) : Prop :=
  segVaddr t mem elf i ≤ a ∧ a < segVaddr t mem elf i + segMemsz t mem elf i

/-- The byte at `a` is read when segments have been loaded: it is one of the headers or of
`e_entry`. -/
def ReadAgain (a : ℕ) : Prop :=
  InHeaders t mem elf a ∨ ∃ k < t.ptrBits / 8, a = t.ptr (elf + 24 + k)

end Headers

instance (t : Target) (mem : Bytes) (elf : ℕ) : Decidable (HeaderAccepted t mem elf) :=
  match t with
  | .i386 => inferInstanceAs (Decidable (_ = _))
  | .x86_64 => inferInstanceAs (Decidable (_ ∧ _))

instance (t : Target) (mem : Bytes) (elf i : ℕ) : Decidable (IsLoad t mem elf i) :=
  inferInstanceAs (Decidable (_ = _))

theorem elfLoad_accepted {t : Target} {elf : ℕ} {m : ByteMem} (h : HeaderAccepted t m.cell elf) :
    elfLoad t elf m = loadImage t elf m := by
  cases t with
  | i386 => exact if_neg (not_not_intro h)
  | x86_64 => exact if_neg (by rintro (hne | hne | hne); exacts [hne h.1, hne h.2.1, hne h.2.2])

theorem elfLoad_rejected {t : Target} {elf : ℕ} {m : ByteMem}
    (h : ¬ HeaderAccepted t m.cell elf) : elfLoad t elf m = (0, m) := by
  cases t with
  | i386 => exact if_pos h
  | x86_64 => exact if_pos (by rwa [← not_and_or, ← not_and_or])

theorem Target.long_congr {t : Target} {mem mem' : Bytes} {a : ℕ}
    (h : ∀ i < t.ptrBits / 8, mem' (t.ptr (a + i)) = mem (t.ptr (a + i))) :
    t.long mem' a = t.long mem a :=
  congrArg _ (Target.le_congr h)

/-- `e_entry` is returned, if the segments leave it. -/
theorem elfLoad_entry {t : Target} {elf : ℕ} {m : ByteMem} {P : ℕ → Prop}
    (hP : ∀ a, ReadAgain t m.cell elf a → P a) (hleaves : Leaves t m.cell elf P)
    (h : HeaderAccepted t m.cell elf) : (elfLoad t elf m).1 = entryPoint t m.cell elf := by
  obtain ⟨-, hleft⟩ := loadSegments_stored (fun a ha => hP a (.inl ha)) hleaves 0 fun _ _ => rfl
  rw [elfLoad_accepted h]
  exact Target.long_congr fun k hk => hleft _ (hP _ (.inr ⟨k, hk, rfl⟩))

/-- A byte of the image of `len` bytes at `elf`. -/
def InImage (elf len a : ℕ) : Prop := elf ≤ a ∧ a < elf + len

/-- An image of `len` bytes at `elf` that can be loaded: the header is accepted, its tables and the
contents of its segments lie in the image, and the segments lie apart from each other and from the
image. -/
structure Loadable (t : Target) (mem : Bytes) (elf len : ℕ) : Prop where
  accepted : HeaderAccepted t mem elf
  inMemory : elf + len ≤ 2 ^ t.ptrBits
  header : t.ehdrSize ≤ len
  table : phoff t mem elf + t.phdrSize * segments t mem elf ≤ len
  contents : ∀ i < segments t mem elf, IsLoad t mem elf i →
    ∀ k < segFilesz t mem elf i, segOffset t mem elf i + k < len
  sizes : ∀ i < segments t mem elf, IsLoad t mem elf i →
    segFilesz t mem elf i ≤ segMemsz t mem elf i
  noWrap : ∀ i < segments t mem elf, IsLoad t mem elf i →
    segVaddr t mem elf i + segMemsz t mem elf i ≤ 2 ^ t.ptrBits
  apart : ∀ i < segments t mem elf, ∀ j < segments t mem elf, i ≠ j → IsLoad t mem elf i →
    IsLoad t mem elf j → ∀ a, SegmentByte t mem elf i a → ¬ SegmentByte t mem elf j a
  offImage : ∀ i < segments t mem elf, IsLoad t mem elf i →
    ∀ a, SegmentByte t mem elf i a → ¬ InImage elf len a

/-- The memory `cell` has the segment `i` of the image in `mem`: the bytes of the file, and then
zeros. -/
structure HoldsSegment (t : Target) (mem : Bytes) (elf i : ℕ) (cell : Bytes) : Prop where
  file : ∀ k < segFilesz t mem elf i,
    cell (segVaddr t mem elf i + k) = mem (elf + segOffset t mem elf i + k)
  zeros : ∀ k, segFilesz t mem elf i ≤ k → k < segMemsz t mem elf i →
    cell (segVaddr t mem elf i + k) = 0

variable {t : Target} {mem : Bytes} {elf len : ℕ}

namespace Loadable

variable {i : ℕ}

/-- The bytes that the headers are read from are bytes of the image. -/
theorem inImage (h : Loadable t mem elf len) {a : ℕ} (ha : ReadAgain t mem elf a) :
    InImage elf len a := by
  have hmem := h.inMemory
  have hheader := h.header
  have htable := h.table
  have hsize : t.ePhnum + 2 ≤ t.ehdrSize ∧ 24 + t.ptrBits / 8 ≤ t.ehdrSize := by
    cases t <;> decide
  rw [InImage]
  rcases ha with (⟨n, hn, rfl⟩ | ⟨i, hi, n, hn, rfl⟩) | ⟨k, hk, rfl⟩
  · rw [Target.ptr, Nat.mod_eq_of_lt (by omega)]
    omega
  · have hrow : t.phdrSize * i + n < t.phdrSize * segments t mem elf := by
      have hle : t.phdrSize * (i + 1) ≤ t.phdrSize * segments t mem elf := Nat.mul_le_mul_left _ hi
      rw [Nat.mul_succ] at hle
      omega
    have hat : phdr t (programHeaders t mem elf) i + n =
        elf + phoff t mem elf + (t.phdrSize * i + n) := by
      rw [phdr, programHeaders, phoff, Nat.add_assoc (elf + _)]
    rw [hat, Target.ptr, Nat.mod_eq_of_lt (by omega)]
    omega
  · rw [Target.ptr, Nat.mod_eq_of_lt (by omega)]
    omega

/-- The bytes that the load of a header stores to are those of its segment. -/
theorem inSegment_iff (h : Loadable t mem elf len) (hi : i < segments t mem elf) {a : ℕ} :
    InSegment t mem elf i a ↔ IsLoad t mem elf i ∧ SegmentByte t mem elf i a := by
  refine and_congr_right fun hload => ?_
  have hsizes := h.sizes i hi hload
  have hwrap := h.noWrap i hi hload
  have hmax : max (segFilesz t mem elf i) (segMemsz t mem elf i) = segMemsz t mem elf i :=
    Nat.max_eq_right hsizes
  constructor
  · rintro ⟨j, hj, rfl⟩
    change j < max (segFilesz t mem elf i) (segMemsz t mem elf i) at hj
    change SegmentByte t mem elf i (t.ptr (segVaddr t mem elf i + j))
    rw [hmax] at hj
    rw [Target.ptr, Nat.mod_eq_of_lt (by omega)]
    exact ⟨Nat.le_add_right _ _, Nat.add_lt_add_left hj _⟩
  · rintro ⟨hlo, hhi⟩
    refine ⟨a - segVaddr t mem elf i, ?_, ?_⟩
    · change _ < max (segFilesz t mem elf i) (segMemsz t mem elf i)
      omega
    · change a = t.ptr (segVaddr t mem elf i + (a - segVaddr t mem elf i))
      rw [Nat.add_sub_cancel' hlo, Target.ptr, Nat.mod_eq_of_lt (by omega)]

/-- The segments leave the image, which they are apart from. -/
theorem leaves (h : Loadable t mem elf len) : Leaves t mem elf (InImage elf len) := by
  intro i hi ph filesz vaddr hload j hj himage
  obtain ⟨-, hbyte⟩ := (h.inSegment_iff hi).mp ⟨hload, j, hj, rfl⟩
  exact absurd himage (h.offImage i hi hload _ hbyte)

end Loadable

/-! ### Loading a segment -/

section Load

variable {i : ℕ} {m : ByteMem}

/-- The image stands as it did. -/
def Stands (mem : Bytes) (elf len : ℕ) (m : ByteMem) : Prop :=
  ∀ a, InImage elf len a → m.cell a = mem a

/-- The members of a program header, while the headers stand as they did. -/
theorem headers_congr (hi : i < segments t mem elf)
    (hm : ∀ a, InHeaders t mem elf a → m.cell a = mem a) :
    t.le m.cell (phdrAt t mem elf i) 4 = t.le mem (phdrAt t mem elf i) 4 ∧
      (t.long m.cell (phdrAt t mem elf i + t.pOffset)).toNat = segOffset t mem elf i ∧
      (t.long m.cell (phdrAt t mem elf i + t.pVaddr)).toNat = segVaddr t mem elf i ∧
      (t.long m.cell (phdrAt t mem elf i + t.pFilesz)).toNat = segFilesz t mem elf i ∧
      (t.long m.cell (phdrAt t mem elf i + t.pMemsz)).toNat = segMemsz t mem elf i := by
  have htype : t.le m.cell (phdrAt t mem elf i + 0) 4 = t.le mem (phdrAt t mem elf i + 0) 4 :=
    member_congr hm hi t.pType_le
  have hlong : ∀ {off}, off + t.ptrBits / 8 ≤ t.phdrSize →
      (t.long m.cell (phdrAt t mem elf i + off)).toNat =
        (t.long mem (phdrAt t mem elf i + off)).toNat :=
    fun hoff => congrArg BitVec.toNat (long_congr hm hi hoff)
  exact ⟨htype, hlong t.pOffset_le, hlong t.pVaddr_le, hlong t.pFilesz_le, hlong t.pMemsz_le⟩

namespace Loadable

theorem fields (h : Loadable t mem elf len) (hi : i < segments t mem elf)
    (hm : Stands mem elf len m) :
    t.le m.cell (phdrAt t mem elf i) 4 = t.le mem (phdrAt t mem elf i) 4 ∧
      (t.long m.cell (phdrAt t mem elf i + t.pOffset)).toNat = segOffset t mem elf i ∧
      (t.long m.cell (phdrAt t mem elf i + t.pVaddr)).toNat = segVaddr t mem elf i ∧
      (t.long m.cell (phdrAt t mem elf i + t.pFilesz)).toNat = segFilesz t mem elf i ∧
      (t.long m.cell (phdrAt t mem elf i + t.pMemsz)).toNat = segMemsz t mem elf i :=
  headers_congr hi fun a ha => hm a (h.inImage (.inl ha))

/-- The slots of a segment are its bytes, and off the image. -/
theorem slot (h : Loadable t mem elf len) (hi : i < segments t mem elf)
    (hload : IsLoad t mem elf i) {j : ℕ} (hj : j < segMemsz t mem elf i) :
    t.ptr (segVaddr t mem elf i + j) = segVaddr t mem elf i + j ∧
      ¬ InImage elf len (t.ptr (segVaddr t mem elf i + j)) := by
  have hwrap := h.noWrap i hi hload
  have hslot : t.ptr (segVaddr t mem elf i + j) = segVaddr t mem elf i + j :=
    Nat.mod_eq_of_lt (by omega)
  rw [hslot]
  exact ⟨rfl, h.offImage i hi hload _ ⟨Nat.le_add_right _ _, Nat.add_lt_add_left hj _⟩⟩

theorem slots_ne (h : Loadable t mem elf len) (hi : i < segments t mem elf)
    (hload : IsLoad t mem elf i) {j k : ℕ} (hjk : j < k) (hk : k < segMemsz t mem elf i) :
    t.ptr (segVaddr t mem elf i + j) ≠ t.ptr (segVaddr t mem elf i + k) := by
  rw [(h.slot hi hload (hjk.trans hk)).1, (h.slot hi hload hk).1]
  omega

/-- A store to a segment leaves the image. -/
theorem stands_set (h : Loadable t mem elf len) (hi : i < segments t mem elf)
    (hload : IsLoad t mem elf i) (hm : Stands mem elf len m) {j : ℕ}
    (hj : j < segMemsz t mem elf i) (b : BitVec 8) :
    Stands mem elf len (m.set (t.ptr (segVaddr t mem elf i + j)) b) := by
  intro a ha
  refine (Store.set_cell_other ?_).trans (hm a ha)
  rintro rfl
  exact (h.slot hi hload hj).2 ha

/-- The copy leaves the bytes of the file. -/
theorem copySegment_holds (h : Loadable t mem elf len) (hi : i < segments t mem elf)
    (hload : IsLoad t mem elf i) (hm : Stands mem elf len m) :
    ∀ k < segFilesz t mem elf i,
      (copySegment t (phdrAt t mem elf i) (segVaddr t mem elf i)
        (elf + segOffset t mem elf i) m).cell (segVaddr t mem elf i + k) =
      mem (elf + segOffset t mem elf i + k) := by
  intro k hk
  have hsizes := h.sizes i hi hload
  have hinMem := h.inMemory
  rw [← (h.slot hi hload (Nat.lt_of_lt_of_le hk hsizes)).1]
  refine Store.setWhile_cell (I := Stands mem elf len) (n := segFilesz t mem elf i)
    (v := fun j => mem (elf + segOffset t mem elf i + j))
    (fun m' hm' => (h.fields hi hm').2.2.2.1)
    (fun m' j hm' _ hj => h.stands_set hi hload hm' (Nat.lt_of_lt_of_le hj hsizes) _) hm
    (fun m' j hm' _ hj => ?_)
    (fun j k _ hjk hk => h.slots_ne hi hload hjk (Nat.lt_of_lt_of_le hk hsizes))
    (Nat.zero_le k) hk
  -- the byte is read from the image, which stands
  have hcontent := h.contents i hi hload j hj
  have hsource : t.ptr (elf + segOffset t mem elf i + j) = elf + segOffset t mem elf i + j :=
    Nat.mod_eq_of_lt (by omega)
  rw [hsource]
  exact hm' _ ⟨by omega, by omega⟩

/-- The zeros follow the bytes of the file. -/
theorem zeroSegment_holds (h : Loadable t mem elf len) (hi : i < segments t mem elf)
    (hload : IsLoad t mem elf i) (hm : Stands mem elf len m) :
    let m' := zeroSegment t (phdrAt t mem elf i) (segVaddr t mem elf i) m
    (∀ k < segFilesz t mem elf i,
      m'.cell (segVaddr t mem elf i + k) = m.cell (segVaddr t mem elf i + k)) ∧
    ∀ k, segFilesz t mem elf i ≤ k → k < segMemsz t mem elf i →
      m'.cell (segVaddr t mem elf i + k) = 0 := by
  have hsizes := h.sizes i hi hload
  refine ⟨?_, ?_⟩
  · intro k hk
    have hk' := Nat.lt_of_lt_of_le hk hsizes
    obtain ⟨hzero, -⟩ := zeroSegment_stored (fun a ha => h.inImage (.inl ha)) h.leaves hi hm hload
    rw [← (h.slot hi hload hk').1]
    refine hzero.cell _ ?_
    rintro ⟨j, hj, hjn, e⟩
    exact h.slots_ne hi hload (Nat.lt_of_lt_of_le hk hj) hjn e
  · intro k hlo hk
    obtain ⟨-, -, -, hfilesz, -⟩ := h.fields hi hm
    rw [← (h.slot hi hload hk).1, zeroSegment, hfilesz]
    exact Store.setWhile_cell (I := Stands mem elf len) (n := segMemsz t mem elf i)
      (v := fun _ => 0) (fun m' hm' => (h.fields hi hm').2.2.2.2)
      (fun m' j hm' _ hj => h.stands_set hi hload hm' hj _) hm (fun _ _ _ _ _ => rfl)
      (fun j k _ hjk hk => h.slots_ne hi hload hjk hk) hlo hk

/-- **One segment.**  The load of a `PT_LOAD` header, while the image stands, leaves its segment. -/
theorem loadSegment_holds (h : Loadable t mem elf len) (hi : i < segments t mem elf)
    (hload : IsLoad t mem elf i) (hm : Stands mem elf len m) :
    HoldsSegment t mem elf i (loadSegment t elf (phdrAt t mem elf i) m).cell := by
  obtain ⟨htype, hoffset, hvaddr, -, -⟩ := h.fields hi hm
  obtain ⟨-, hstands⟩ := copySegment_stored (fun a ha => h.inImage (.inl ha)) h.leaves hi hm hload
  have hfile := h.copySegment_holds hi hload hm
  obtain ⟨hkept, hzeros⟩ := h.zeroSegment_holds hi hload hstands
  rw [loadSegment, if_pos (htype.trans hload), hoffset, hvaddr]
  exact ⟨fun k hk => (hkept k hk).trans (hfile k hk), hzeros⟩

/-- **The loop over the program headers**, from the `i`-th on, leaves the segments of these. -/
theorem loadSegments_hold (h : Loadable t mem elf len) (i : ℕ) {m : ByteMem}
    (hm : Stands mem elf len m) : ∀ k, i ≤ k → k < segments t mem elf →
      IsLoad t mem elf k →
      HoldsSegment t mem elf k (loadSegments t elf (programHeaders t mem elf) m i).cell := by
  intro k hik hk hload
  have hi : i < segments t mem elf := Nat.lt_of_le_of_lt hik hk
  have himage : ∀ a, InHeaders t mem elf a → InImage elf len a := fun a ha => h.inImage (.inl ha)
  obtain ⟨-, hstands⟩ := loadSegment_stored himage h.leaves hi hm
  rw [loadSegments, phnum_congr fun a ha => hm a (himage a ha),
    if_pos (show i < (phnum t mem elf).toNat from hi)]
  rcases Nat.eq_or_lt_of_le hik with rfl | hlt
  · -- the later segments are stored apart from this one
    obtain ⟨hrest, -⟩ := loadSegments_stored himage h.leaves (i + 1) hstands
    have hkept : ∀ a, SegmentByte t mem elf i a → _ := fun a ha => hrest.cell a (by
      rintro ⟨j, hij, hj, hseg⟩
      obtain ⟨hload', hbyte⟩ := (h.inSegment_iff hj).mp hseg
      exact h.apart i hk j hj (Nat.ne_of_lt hij) hload hload' a ha hbyte)
    have hsizes := h.sizes i hk hload
    obtain ⟨hfile, hzeros⟩ := h.loadSegment_holds hk hload hm
    exact ⟨fun k hkf => (hkept _ ⟨by omega, by omega⟩).trans (hfile k hkf),
      fun k hlo hkm => (hkept _ ⟨by omega, by omega⟩).trans (hzeros k hlo hkm)⟩
  · exact loadSegments_hold h (i + 1) hstands k hlt hk hload
termination_by segments t mem elf - i

end Loadable

end Load

/-- What `elf_load` makes of an image: its segments in memory, nothing changed off them, no byte
stored to off them, and the entry point. -/
structure BuildsImage (t : Target) (elf : ℕ) (m : ByteMem) (r : BitVec t.ptrBits × ByteMem) :
    Prop where
  entry : r.1 = entryPoint t m.cell elf
  segment : ∀ i < segments t m.cell elf, IsLoad t m.cell elf i →
    HoldsSegment t m.cell elf i r.2.cell
  other : ∀ a, (∀ i < segments t m.cell elf, IsLoad t m.cell elf i →
    ¬ SegmentByte t m.cell elf i a) → r.2.cell a = m.cell a
  stored : ∀ a, a ∈ r.2.written ↔ a ∈ m.written ∨
    ∃ i < segments t m.cell elf, IsLoad t m.cell elf i ∧ SegmentByte t m.cell elf i a

/-- **`elf_load` builds the image.** -/
theorem elf_load_builds_image {m : ByteMem} (h : Loadable t m.cell elf len) :
    BuildsImage t elf m (elfLoad t elf m) := by
  have hstored : Store.Stored m (loadSegments t elf (programHeaders t m.cell elf) m 0)
      fun a => ∃ i < segments t m.cell elf, IsLoad t m.cell elf i ∧ SegmentByte t m.cell elf i a :=
    (loadSegments_stored (fun a ha => h.inImage (.inl ha)) h.leaves 0 fun _ _ => rfl).1.congr
      fun a => by
      constructor
      · rintro ⟨i, -, hi, hseg⟩
        exact ⟨i, hi, (h.inSegment_iff hi).mp hseg⟩
      · rintro ⟨i, hi, hseg⟩
        exact ⟨i, Nat.zero_le i, hi, (h.inSegment_iff hi).mpr hseg⟩
  have hentry := elfLoad_entry (fun _ => h.inImage) h.leaves h.accepted
  rw [elfLoad_accepted h.accepted] at hentry ⊢
  exact ⟨hentry, fun i hi => h.loadSegments_hold 0 (fun _ _ => rfl) i (Nat.zero_le i) hi,
    fun a ha => hstored.cell a fun ⟨i, hi, hload, hbyte⟩ => ha i hi hload hbyte, hstored.written⟩

/-- Memory with an image at `0x400000`: a note, and a segment of eight bytes at `0x1000`, the first
four of them the `ABCD` behind the headers. -/
def noteAndSegment : Bytes := fun a =>
  ([(0x400000, 0x7F), (0x400001, 0x45), (0x400002, 0x4C), (0x400003, 0x46), (0x400004, 1),
    (0x400012, 3), (0x400019, 0x10), (0x40001C, 52), (0x40002C, 2),
    (0x400034, 4), (0x40003C, 0xFF), (0x400044, 9),
    (0x400054, 1), (0x400058, 116), (0x40005D, 0x10), (0x400064, 4), (0x400068, 8),
    (0x400074, 0x41), (0x400075, 0x42), (0x400076, 0x43), (0x400077, 0x44),
    (0x1006, 0xEE)].lookup a).getD 0

theorem loadable_noteAndSegment : Loadable .i386 noteAndSegment 0x400000 120 := by
  have hsecond : ∀ i < segments .i386 noteAndSegment 0x400000,
      IsLoad .i386 noteAndSegment 0x400000 i → i = 1 ∧
        segVaddr .i386 noteAndSegment 0x400000 i = 0x1000 ∧
        segMemsz .i386 noteAndSegment 0x400000 i = 8 := by decide +kernel
  refine ⟨by decide +kernel, by decide, by decide, by decide +kernel, by decide +kernel,
    by decide +kernel, by decide +kernel, ?_, ?_⟩
  · intro i hi j hj hij hli hlj
    exact absurd ((hsecond i hi hli).1.trans (hsecond j hj hlj).1.symm) hij
  · intro i hi hli a ha himage
    obtain ⟨-, hvaddr, hmemsz⟩ := hsecond i hi hli
    rw [SegmentByte, hvaddr, hmemsz] at ha
    rw [InImage] at himage
    omega

theorem elf_load_builds_image_note :
    BuildsImage .i386 0x400000 ⟨noteAndSegment, []⟩
      (elfLoad .i386 0x400000 ⟨noteAndSegment, []⟩) :=
  elf_load_builds_image loadable_noteAndSegment

end ZeptoOS
