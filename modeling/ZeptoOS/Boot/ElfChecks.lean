import ZeptoOS.Boot.ElfImage

/-!
# Boot — ElfChecks

What `elf_load` reads, and of which files it rejects what it cannot load
(`rejects_unloadable_of_needs_no_check`).  The function of i386 tests the first four bytes of the
file, that of x86_64 the class and the machine too, and neither tests an offset, a count or a size.
-/

namespace ZeptoOS
open Lib

/-! ### The bytes read -/

section Reads

variable (t : Target)

/-- What the copy of the file's part of a segment reads. -/
def copyReads (ph destination source : ℕ) (m : ByteMem) : List ℕ :=
  m.readsWhile (fun m => t.long m.cell (ph + t.pFilesz)) (fun j => t.ptr (destination + j))
    (fun m j => m.cell (t.ptr (source + j))) (t.bytesAt (ph + t.pFilesz) (t.ptrBits / 8))
    (fun j => [t.ptr (source + j)]) 0

/-- What the loop of the zeros reads. -/
def zeroReads (ph destination : ℕ) (m : ByteMem) : List ℕ :=
  t.bytesAt (ph + t.pFilesz) (t.ptrBits / 8) ++
    m.readsWhile (fun m => t.long m.cell (ph + t.pMemsz)) (fun j => t.ptr (destination + j))
      (fun _ _ => 0) (t.bytesAt (ph + t.pMemsz) (t.ptrBits / 8)) (fun _ => [])
      (t.long m.cell (ph + t.pFilesz)).toNat

/-- What one turn of the loop over the program headers reads. -/
def segmentReads (elf ph : ℕ) (m : ByteMem) : List ℕ :=
  t.bytesAt ph 4 ++
    if t.le m.cell ph 4 = 1 then
      let destination := (t.long m.cell (ph + t.pVaddr)).toNat
      let source := elf + (t.long m.cell (ph + t.pOffset)).toNat
      t.bytesAt (ph + t.pVaddr) (t.ptrBits / 8) ++ t.bytesAt (ph + t.pOffset) (t.ptrBits / 8) ++
        copyReads t ph destination source m ++
        zeroReads t ph destination (copySegment t ph destination source m)
    else []

/-- What the loop over the program headers reads, from the `i`-th on. -/
def segmentsReads (elf phdrs : ℕ) (m : ByteMem) (i : ℕ) : List ℕ :=
  t.bytesAt (elf + t.ePhnum) 2 ++
    if i < (phnum t m.cell elf).toNat then
      segmentReads t elf (phdr t phdrs i) m ++
        segmentsReads elf phdrs (loadSegment t elf (phdr t phdrs i) m) (i + 1)
    else []
termination_by 2 ^ 16 - i
decreasing_by
  have := (phnum t m.cell elf).isLt
  omega

/-- What the load of an image reads that is accepted. -/
def imageReads (elf : ℕ) (m : ByteMem) : List ℕ :=
  t.bytesAt (elf + t.ePhoff) (t.ptrBits / 8) ++
    segmentsReads t elf (programHeaders t m.cell elf) m 0 ++ t.bytesAt (elf + 24) (t.ptrBits / 8)

end Reads

/-- What the function of i386 tests. -/
def I386.testedBytes (elf : ℕ) : List ℕ := Target.i386.bytesAt elf 4

/-- What the function of x86_64 tests: a test that fails is the last. -/
def X64.testedBytes (elf : ℕ) (mem : Bytes) : List ℕ :=
  let t := Target.x86_64
  t.bytesAt elf 4 ++
    if t.le mem elf 4 ≠ elfMagic then [] else t.bytesAt (elf + 4) 1 ++
      if t.le mem (elf + 4) 1 ≠ 2 then [] else t.bytesAt (elf + 18) 2

/-- What the two functions read before they reject or accept. -/
def testedBytes (t : Target) (elf : ℕ) (mem : Bytes) : List ℕ :=
  match t with
  | .i386 => I386.testedBytes elf
  | .x86_64 => X64.testedBytes elf mem

/-- The addresses that `elf_load` reads from. -/
def elfLoadReads (t : Target) (elf : ℕ) (m : ByteMem) : List ℕ :=
  testedBytes t elf m.cell ++ if HeaderAccepted t m.cell elf then imageReads t elf m else []

/-! ### What a load that leaves its headers alone reads -/

section Kept

variable {t : Target} {mem : Bytes} {elf i a : ℕ} {m : ByteMem}

/-- `a` is read in the turn of the program header `i`. -/
def TurnReads (t : Target) (mem : Bytes) (elf i a : ℕ) : Prop :=
  let ph := phdrAt t mem elf i
  let long := t.ptrBits / 8
  a ∈ t.bytesAt ph 4 ∨ IsLoad t mem elf i ∧
    (a ∈ t.bytesAt (ph + t.pVaddr) long ∨ a ∈ t.bytesAt (ph + t.pOffset) long ∨
      a ∈ t.bytesAt (ph + t.pFilesz) long ∨ a ∈ t.bytesAt (ph + t.pMemsz) long ∨
      a ∈ t.bytesAt (elf + segOffset t mem elf i) (segFilesz t mem elf i))

variable {P : ℕ → Prop} (hP : ∀ a, InHeaders t mem elf a → P a) (hleaves : Leaves t mem elf P)
include hP hleaves

/-- The copy reads its bound and the bytes of the file. -/
theorem mem_copyReads (hi : i < segments t mem elf) (hload : IsLoad t mem elf i)
    (hm : ∀ a, P a → m.cell a = mem a) :
    a ∈ copyReads t (phdrAt t mem elf i) (segVaddr t mem elf i) (elf + segOffset t mem elf i) m ↔
      a ∈ t.bytesAt (phdrAt t mem elf i + t.pFilesz) (t.ptrBits / 8) ∨
        a ∈ t.bytesAt (elf + segOffset t mem elf i) (segFilesz t mem elf i) := by
  have hreads : a ∈ copyReads t (phdrAt t mem elf i) (segVaddr t mem elf i)
      (elf + segOffset t mem elf i) m ↔ _ :=
    Store.mem_readsWhile (I := fun m => ∀ a, P a → m.cell a = mem a)
      (fun m' hm' => (headers_congr hi fun a ha => hm' a (hP a ha)).2.2.2.1)
      (fun m' j hm' _ hj => hleaves.copy_set hi hload hm' hj) hm
  rw [hreads, Target.mem_bytesAt (p := elf + segOffset t mem elf i)]
  refine or_congr_right ⟨?_, ?_⟩
  · rintro ⟨j, -, hj, ha⟩
    exact ⟨j, hj, List.mem_singleton.mp ha⟩
  · rintro ⟨j, hj, ha⟩
    exact ⟨j, Nat.zero_le j, hj, List.mem_singleton.mpr ha⟩

/-- The loop of the zeros reads the sizes. -/
theorem mem_zeroReads (hi : i < segments t mem elf) (hload : IsLoad t mem elf i)
    (hm : ∀ a, P a → m.cell a = mem a) :
    a ∈ zeroReads t (phdrAt t mem elf i) (segVaddr t mem elf i) m ↔
      a ∈ t.bytesAt (phdrAt t mem elf i + t.pFilesz) (t.ptrBits / 8) ∨
        a ∈ t.bytesAt (phdrAt t mem elf i + t.pMemsz) (t.ptrBits / 8) := by
  obtain ⟨-, -, -, hfilesz, -⟩ := headers_congr hi fun a ha => hm a (hP a ha)
  rw [zeroReads, hfilesz, List.mem_append]
  refine or_congr_right ((Store.mem_readsWhile (I := fun m => ∀ a, P a → m.cell a = mem a)
    (n := segMemsz t mem elf i)
    (fun m' hm' => (headers_congr hi fun a ha => hm' a (hP a ha)).2.2.2.2)
    (fun m' j hm' hlo hj => hleaves.zero_set hi hload hm' hlo hj) hm).trans ?_)
  refine ⟨fun h => h.resolve_right ?_, .inl⟩
  rintro ⟨j, -, -, ha⟩
  exact absurd ha List.not_mem_nil

/-- **One turn.** -/
theorem mem_segmentReads (hi : i < segments t mem elf) (hm : ∀ a, P a → m.cell a = mem a) :
    a ∈ segmentReads t elf (phdrAt t mem elf i) m ↔ TurnReads t mem elf i a := by
  obtain ⟨htype, hoffset, hvaddr, -, -⟩ := headers_congr hi fun a ha => hm a (hP a ha)
  rw [segmentReads, TurnReads, htype, hoffset, hvaddr, List.mem_append]
  refine or_congr_right ?_
  by_cases hload : IsLoad t mem elf i
  · obtain ⟨-, hcopied⟩ := copySegment_stored hP hleaves hi hm hload
    rw [if_pos (show t.le mem (phdrAt t mem elf i) 4 = 1 from hload), and_iff_right hload]
    have hzero : a ∈ zeroReads t (phdrAt t mem elf i) (segVaddr t mem elf i)
        (copySegment t (phdrAt t mem elf i) (segVaddr t mem elf i)
          (elf + segOffset t mem elf i) m) ↔ _ := mem_zeroReads hP hleaves hi hload hcopied
    simp only [List.mem_append, mem_copyReads hP hleaves hi hload hm, hzero]
    constructor
    · rintro (((hvaddr | hoffset) | hfilesz | hcontent) | hfilesz | hmemsz)
      exacts [.inl hvaddr, .inr (.inl hoffset), .inr (.inr (.inl hfilesz)),
        .inr (.inr (.inr (.inr hcontent))), .inr (.inr (.inl hfilesz)),
        .inr (.inr (.inr (.inl hmemsz)))]
    · rintro (hvaddr | hoffset | hfilesz | hmemsz | hcontent)
      exacts [.inl (.inl (.inl hvaddr)), .inl (.inl (.inr hoffset)), .inl (.inr (.inl hfilesz)),
        .inr (.inr hmemsz), .inl (.inr (.inr hcontent))]
  · rw [if_neg (show ¬ t.le mem (phdrAt t mem elf i) 4 = 1 from hload)]
    exact ⟨(absurd · List.not_mem_nil), fun h => absurd h.1 hload⟩

/-- The loop over the program headers, from the `i`-th on. -/
theorem mem_segmentsReads (i : ℕ) {m : ByteMem} (hm : ∀ a, P a → m.cell a = mem a) :
    a ∈ segmentsReads t elf (programHeaders t mem elf) m i ↔
      a ∈ t.bytesAt (elf + t.ePhnum) 2 ∨
        ∃ j, i ≤ j ∧ j < segments t mem elf ∧ TurnReads t mem elf j a := by
  rw [segmentsReads, phnum_congr fun a ha => hm a (hP a ha), List.mem_append]
  split
  · rename_i hi
    obtain ⟨-, hleft⟩ := loadSegment_stored hP hleaves hi hm
    have hfirst : a ∈ segmentReads t elf (phdr t (programHeaders t mem elf) i) m ↔ _ :=
      mem_segmentReads hP hleaves hi hm
    rw [List.mem_append, hfirst, mem_segmentsReads (i + 1) hleft]
    constructor
    · rintro (hphnum | hturn | hphnum | ⟨j, hij, hj, hturn⟩)
      · exact .inl hphnum
      · exact .inr ⟨i, Nat.le_refl i, hi, hturn⟩
      · exact .inl hphnum
      · exact .inr ⟨j, Nat.le_of_succ_le hij, hj, hturn⟩
    · rintro (hphnum | ⟨j, hij, hj, hturn⟩)
      · exact .inl hphnum
      · rcases Nat.eq_or_lt_of_le hij with rfl | hlt
        · exact .inr (.inl hturn)
        · exact .inr (.inr (.inr ⟨j, hlt, hj, hturn⟩))
  · rename_i hi
    refine or_congr_right ⟨(absurd · List.not_mem_nil), ?_⟩
    rintro ⟨j, hij, hj, -⟩
    exact absurd (Nat.lt_of_le_of_lt hij hj) hi
termination_by 2 ^ 16 - i
decreasing_by
  have := (phnum t mem elf).isLt
  omega

omit hP hleaves in
/-- **What `elf_load` reads** of an image that is accepted. -/
theorem mem_elfLoadReads (hP : ∀ a, InHeaders t m.cell elf a → P a)
    (hleaves : Leaves t m.cell elf P) (h : HeaderAccepted t m.cell elf) :
    a ∈ elfLoadReads t elf m ↔ a ∈ testedBytes t elf m.cell ∨
      a ∈ t.bytesAt (elf + t.ePhoff) (t.ptrBits / 8) ∨ a ∈ t.bytesAt (elf + t.ePhnum) 2 ∨
      (∃ i < segments t m.cell elf, TurnReads t m.cell elf i a) ∨
      a ∈ t.bytesAt (elf + 24) (t.ptrBits / 8) := by
  have hloop := mem_segmentsReads (a := a) hP hleaves 0 (m := m) fun _ _ => rfl
  simp only [Nat.zero_le, true_and] at hloop
  rw [elfLoadReads, if_pos h, imageReads]
  simp only [List.mem_append, hloop, or_assoc]

end Kept

/-! ### What a file is checked for -/

/-- `e_class` of the target's files. -/
def Target.elfClass : Target → ℕ
  | .i386 => 1
  | .x86_64 => 2

/-- `e_machine` of the target's files. -/
def Target.elfMachine : Target → ℕ
  | .i386 => 3
  | .x86_64 => 0x3E

section Checks

variable (t : Target) (mem : Bytes) (elf len i : ℕ)

/-- The offset of `program_headers[i]` in the file. -/
def phdrOffset : ℕ := phoff t mem elf + t.phdrSize * i

/-- A byte of the file of `len` bytes at `elf`. -/
def InFile (a : ℕ) : Prop := ∃ k < len, a = t.ptr (elf + k)

/-- A byte of a segment that is loaded. -/
def InRanges (a : ℕ) : Prop :=
  ∃ i < segments t mem elf, IsLoad t mem elf i ∧
    ∃ j < segMemsz t mem elf i, a = t.ptr (segVaddr t mem elf i + j)

/-- The file of `len` bytes at `elf` is an image of the target, and its program headers and the
contents of its segments lie in it. -/
structure ValidImage : Prop where
  magic : t.le mem elf 4 = elfMagic
  elfClass : t.le mem (elf + 4) 1 = t.elfClass
  machine : t.le mem (elf + 18) 2 = t.elfMachine
  table : phoff t mem elf + t.phdrSize * segments t mem elf ≤ len
  contents : ∀ i < segments t mem elf, IsLoad t mem elf i →
    ∀ k < segFilesz t mem elf i, segOffset t mem elf i + k < len
  sizes : ∀ i < segments t mem elf, IsLoad t mem elf i →
    segFilesz t mem elf i ≤ segMemsz t mem elf i

/-- `elf_load` rejects what it cannot load: it returns an entry of a valid image only, stores to the
segments only, and reads from the file only. -/
structure RejectsUnloadable : Prop where
  valid : (elfLoad t elf ⟨mem, []⟩).1 ≠ 0 → ValidImage t mem elf len
  stores : ∀ a ∈ (elfLoad t elf ⟨mem, []⟩).2.written, InRanges t mem elf a
  reads : ∀ a ∈ elfLoadReads t elf ⟨mem, []⟩, InFile t elf len a

/-- The `n` bytes at `y` of the file lie in it, with `y` added to a pointer. -/
def Inside (y n : ℕ) : Prop := ∀ k < n, (y + k) % 2 ^ t.ptrBits < len

/-- What is tested of the header lies in the file. -/
def TestedInside : Prop :=
  match t with
  | .i386 => 4 ≤ len
  | .x86_64 => 4 ≤ len ∧ (Target.x86_64.le mem elf 4 = elfMagic →
      5 ≤ len ∧ (Target.x86_64.le mem (elf + 4) 1 = 2 → 20 ≤ len))

/-- What is read of the program header `i` and of its segment lies in the file. -/
structure TurnInside : Prop where
  type : Inside t len (phdrOffset t mem elf i) 4
  vaddr : IsLoad t mem elf i → Inside t len (phdrOffset t mem elf i + t.pVaddr) (t.ptrBits / 8)
  offset : IsLoad t mem elf i → Inside t len (phdrOffset t mem elf i + t.pOffset) (t.ptrBits / 8)
  filesz : IsLoad t mem elf i → Inside t len (phdrOffset t mem elf i + t.pFilesz) (t.ptrBits / 8)
  memsz : IsLoad t mem elf i → Inside t len (phdrOffset t mem elf i + t.pMemsz) (t.ptrBits / 8)
  contents : IsLoad t mem elf i → Inside t len (segOffset t mem elf i) (segFilesz t mem elf i)

/-- The file needs no check but those of the header: its header ends behind `e_phnum`, and it is a
valid image or its `e_entry` is 0.  Of an image that is loaded in vain, what is read lies in the
file, and the bytes that are copied past the end of a segment belong to another one.  A segment that
lies over `e_entry`, `e_phnum` or a program header is loaded onto itself there. -/
structure NeedsNoCheck : Prop where
  tested : TestedInside t mem elf len
  leaves : HeaderAccepted t mem elf → Leaves t mem elf (ReadAgain t mem elf)
  header : HeaderAccepted t mem elf → t.ePhnum + 2 ≤ len
  entry : HeaderAccepted t mem elf → entryPoint t mem elf ≠ 0 → ValidImage t mem elf len
  inVain : HeaderAccepted t mem elf → entryPoint t mem elf = 0 →
    ∀ i < segments t mem elf, TurnInside t mem elf len i ∧
      (IsLoad t mem elf i → ∀ j, segMemsz t mem elf i ≤ j → j < segFilesz t mem elf i →
        InRanges t mem elf (t.ptr (segVaddr t mem elf i + j)))

end Checks

section Rejects

variable {t : Target} {mem : Bytes} {elf len i y n : ℕ}

theorem inFile_ptr (elf : ℕ) : InFile t elf len (t.ptr (elf + y)) ↔ y % 2 ^ t.ptrBits < len := by
  constructor
  · rintro ⟨k, hk, e⟩
    have hmod : y % 2 ^ t.ptrBits = k % 2 ^ t.ptrBits := Nat.ModEq.add_left_cancel' elf e
    rw [hmod]
    exact Nat.lt_of_le_of_lt (Nat.mod_le _ _) hk
  · intro h
    exact ⟨_, h, (Nat.ModEq.add_left elf (Nat.mod_modEq y _)).symm⟩

theorem forall_bytesAt {p : ℕ} (hp : p = elf + y) :
    (∀ a ∈ t.bytesAt p n, InFile t elf len a) ↔ Inside t len y n := by
  subst hp
  constructor
  · intro h k hk
    rw [← inFile_ptr elf, ← Nat.add_assoc]
    exact h _ (Target.mem_bytesAt.mpr ⟨k, hk, rfl⟩)
  · intro h a ha
    obtain ⟨k, hk, rfl⟩ := Target.mem_bytesAt.mp ha
    rw [Nat.add_assoc, inFile_ptr elf]
    exact h k hk

/-- Bytes behind each other lie in the file, if the last one does. -/
theorem inside_iff (hn : 0 < n) (hy : y + n ≤ 2 ^ t.ptrBits) : Inside t len y n ↔ y + n ≤ len := by
  constructor
  · intro h
    have hlast := h (n - 1) (by omega)
    rw [Nat.mod_eq_of_lt (by omega)] at hlast
    omega
  · intro h k hk
    rw [Nat.mod_eq_of_lt (by omega)]
    omega

theorem Inside.of_le (hlen : len ≤ 2 ^ t.ptrBits) (h : y + n ≤ len) : Inside t len y n := by
  intro k hk
  rw [Nat.mod_eq_of_lt (by omega)]
  omega

theorem testedInside_iff :
    TestedInside t mem elf len ↔ ∀ a ∈ testedBytes t elf mem, InFile t elf len a := by
  cases t with
  | i386 =>
      rw [testedBytes, I386.testedBytes, forall_bytesAt (Nat.add_zero elf).symm,
        inside_iff (by decide) (by decide), TestedInside, Nat.zero_add]
  | x86_64 =>
      dsimp only [TestedInside, testedBytes, X64.testedBytes]
      rw [List.forall_mem_append, forall_bytesAt (Nat.add_zero elf).symm,
        inside_iff (by decide) (by decide), Nat.zero_add]
      refine and_congr_right fun _ => ?_
      by_cases hmagic : Target.x86_64.le mem elf 4 = elfMagic
      · rw [if_neg (not_not_intro hmagic), List.forall_mem_append, forall_bytesAt rfl,
          inside_iff (by decide) (by decide), forall_prop_of_true hmagic]
        refine and_congr_right fun _ => ?_
        by_cases hclass : Target.x86_64.le mem (elf + 4) 1 = 2
        · rw [if_neg (not_not_intro hclass), forall_bytesAt rfl,
            inside_iff (by decide) (by decide), forall_prop_of_true hclass]
        · rw [if_pos hclass]
          exact ⟨fun _ => List.forall_mem_nil _, fun _ h => absurd h hclass⟩
      · rw [if_pos hmagic]
        exact ⟨fun _ => List.forall_mem_nil _, fun _ h => absurd h hmagic⟩

theorem turnInside_iff :
    TurnInside t mem elf len i ↔ ∀ a, TurnReads t mem elf i a → InFile t elf len a := by
  have hat : ∀ off, phdrAt t mem elf i + off = elf + (phdrOffset t mem elf i + off) := fun off => by
    rw [phdrAt, phdr, programHeaders, phdrOffset, phoff, Nat.add_assoc elf, Nat.add_assoc elf]
  have htype : (∀ a ∈ t.bytesAt (phdrAt t mem elf i + 0) 4, InFile t elf len a) ↔ _ :=
    forall_bytesAt (hat 0)
  rw [Nat.add_zero, Nat.add_zero] at htype
  constructor
  · rintro h a (ha | ⟨hload, ha | ha | ha | ha | ha⟩)
    · exact htype.mpr h.type a ha
    · exact (forall_bytesAt (hat _)).mpr (h.vaddr hload) a ha
    · exact (forall_bytesAt (hat _)).mpr (h.offset hload) a ha
    · exact (forall_bytesAt (hat _)).mpr (h.filesz hload) a ha
    · exact (forall_bytesAt (hat _)).mpr (h.memsz hload) a ha
    · exact (forall_bytesAt rfl).mpr (h.contents hload) a ha
  · intro h
    exact {
      type := htype.mp fun a ha => h a (.inl ha)
      vaddr := fun hload => (forall_bytesAt (hat _)).mp fun a ha => h a (.inr ⟨hload, .inl ha⟩)
      offset := fun hload =>
        (forall_bytesAt (hat _)).mp fun a ha => h a (.inr ⟨hload, .inr (.inl ha)⟩)
      filesz := fun hload =>
        (forall_bytesAt (hat _)).mp fun a ha => h a (.inr ⟨hload, .inr (.inr (.inl ha))⟩)
      memsz := fun hload =>
        (forall_bytesAt (hat _)).mp fun a ha => h a (.inr ⟨hload, .inr (.inr (.inr (.inl ha)))⟩)
      contents := fun hload =>
        (forall_bytesAt rfl).mp fun a ha => h a (.inr ⟨hload, .inr (.inr (.inr (.inr ha)))⟩) }

/-- What is read of a valid image lies in the file. -/
theorem ValidImage.turnInside (h : ValidImage t mem elf len) (hlen : len ≤ 2 ^ t.ptrBits)
    (hi : i < segments t mem elf) : TurnInside t mem elf len i := by
  have htable := h.table
  have hrow : t.phdrSize * (i + 1) ≤ t.phdrSize * segments t mem elf := Nat.mul_le_mul_left _ hi
  rw [Nat.mul_succ] at hrow
  have hfield : ∀ {off n}, off + n ≤ t.phdrSize → Inside t len (phdrOffset t mem elf i + off) n :=
    fun hoff => Inside.of_le hlen (by rw [phdrOffset]; omega)
  have hlong : ∀ {off}, off + t.ptrBits / 8 ≤ t.phdrSize → IsLoad t mem elf i →
      Inside t len (phdrOffset t mem elf i + off) (t.ptrBits / 8) := fun hoff _ => hfield hoff
  refine ⟨hfield t.pType_le, hlong t.pVaddr_le, hlong t.pOffset_le, hlong t.pFilesz_le,
    hlong t.pMemsz_le, ?_⟩
  intro hload k hk
  have hcontent := h.contents i hi hload k hk
  rwa [Nat.mod_eq_of_lt (by omega)]

/-- The header of an image that is accepted is read in the file, if `e_phnum` is. -/
theorem headerInside_iff (elf : ℕ) :
    (∀ a, (a ∈ t.bytesAt (elf + t.ePhoff) (t.ptrBits / 8) ∨ a ∈ t.bytesAt (elf + t.ePhnum) 2 ∨
      a ∈ t.bytesAt (elf + 24) (t.ptrBits / 8)) → InFile t elf len a) ↔ t.ePhnum + 2 ≤ len := by
  have hbound : t.ePhnum + 2 ≤ 2 ^ t.ptrBits ∧ t.ePhoff + t.ptrBits / 8 ≤ t.ePhnum + 2 ∧
      24 + t.ptrBits / 8 ≤ t.ePhnum + 2 ∧ 0 < t.ptrBits / 8 := by cases t <;> decide
  obtain ⟨hbound, hphoff, hentry, hlong⟩ := hbound
  constructor
  · intro h
    have hphnum : Inside t len t.ePhnum 2 :=
      (forall_bytesAt rfl).mp fun a ha => h a (.inr (.inl ha))
    exact (inside_iff (by decide) hbound).mp hphnum
  · rintro h a (ha | ha | ha)
    · exact (forall_bytesAt rfl).mpr ((inside_iff hlong (by omega)).mpr (by omega)) a ha
    · exact (forall_bytesAt rfl).mpr ((inside_iff (by decide) hbound).mpr h) a ha
    · exact (forall_bytesAt rfl).mpr ((inside_iff hlong (by omega)).mpr (by omega)) a ha

/-- The stores of an image that is accepted. -/
theorem elfLoad_written {P : ℕ → Prop} (hP : ∀ a, InHeaders t mem elf a → P a)
    (hleaves : Leaves t mem elf P) (h : HeaderAccepted t mem elf) {a : ℕ} :
    a ∈ (elfLoad t elf ⟨mem, []⟩).2.written ↔
      ∃ i < segments t mem elf, InSegment t mem elf i a := by
  obtain ⟨hstored, -⟩ := loadSegments_stored (m := ⟨mem, []⟩) hP hleaves 0 fun _ _ => rfl
  rw [elfLoad_accepted (m := ⟨mem, []⟩) h, loadImage, hstored.written]
  constructor
  · rintro (hnil | ⟨i, -, hi, hseg⟩)
    · exact absurd hnil List.not_mem_nil
    · exact ⟨i, hi, hseg⟩
  · rintro ⟨i, hi, hseg⟩
    exact .inr ⟨i, Nat.zero_le i, hi, hseg⟩

/-- A segment lies in the ranges, if what is copied past its end does. -/
theorem inSegment_inRanges (hi : i < segments t mem elf) :
    (∀ a, InSegment t mem elf i a → InRanges t mem elf a) ↔
      (IsLoad t mem elf i → ∀ j, segMemsz t mem elf i ≤ j → j < segFilesz t mem elf i →
        InRanges t mem elf (t.ptr (segVaddr t mem elf i + j))) := by
  constructor
  · intro h hload j _ hj
    exact h _ ⟨hload, j, lt_max_of_lt_left hj, rfl⟩
  · rintro h a ⟨hload, j, hj, rfl⟩
    by_cases hmemsz : j < segMemsz t mem elf i
    · exact ⟨i, hi, hload, j, hmemsz, rfl⟩
    · exact h hload j (Nat.not_lt.mp hmemsz) ((lt_max_iff.mp hj).resolve_right hmemsz)

/-- **Files that are rejected.** -/
theorem rejects_of_rejected (h : ¬ HeaderAccepted t mem elf) :
    RejectsUnloadable t mem elf len ↔ TestedInside t mem elf len := by
  have hload := elfLoad_rejected (m := ⟨mem, []⟩) h
  have hreads : elfLoadReads t elf ⟨mem, []⟩ = testedBytes t elf mem := by
    rw [elfLoadReads, if_neg h, List.append_nil]
  rw [testedInside_iff, ← hreads]
  refine ⟨RejectsUnloadable.reads, fun htested => ⟨?_, ?_, htested⟩⟩
  · intro hne
    rw [hload] at hne
    exact absurd rfl hne
  · intro a ha
    rw [hload] at ha
    exact absurd ha List.not_mem_nil

/-- **Files that are accepted.**  The loader reads the headers and the contents wherever they say,
stores to the segments, and returns `e_entry`. -/
theorem rejects_of_accepted (hleaves : Leaves t mem elf (ReadAgain t mem elf))
    (h : HeaderAccepted t mem elf) :
    RejectsUnloadable t mem elf len ↔ TestedInside t mem elf len ∧ t.ePhnum + 2 ≤ len ∧
      (entryPoint t mem elf ≠ 0 → ValidImage t mem elf len) ∧
      ∀ i < segments t mem elf, TurnInside t mem elf len i ∧
        ∀ a, InSegment t mem elf i a → InRanges t mem elf a := by
  have hresult := elfLoad_entry (m := ⟨mem, []⟩) (fun _ => id) hleaves h
  have hreads : ∀ a, _ ↔ _ := fun a =>
    mem_elfLoadReads (m := ⟨mem, []⟩) (a := a) (fun _ => .inl) hleaves h
  have hwritten : ∀ a, _ ↔ _ := fun a => elfLoad_written (a := a) (fun _ => .inl) hleaves h
  rw [testedInside_iff, ← headerInside_iff elf]
  constructor
  · intro hr
    refine ⟨?_, ?_, ?_, fun i hi => ⟨turnInside_iff.mpr ?_, ?_⟩⟩
    · intro a ha
      exact hr.reads a ((hreads a).mpr (.inl ha))
    · intro a ha
      refine hr.reads a ((hreads a).mpr (.inr ?_))
      rcases ha with ha | ha | ha
      exacts [.inl ha, .inr (.inl ha), .inr (.inr (.inr ha))]
    · rw [← hresult]
      exact hr.valid
    · intro a ha
      exact hr.reads a ((hreads a).mpr (.inr (.inr (.inr (.inl ⟨i, hi, ha⟩)))))
    · intro a hseg
      exact hr.stores a ((hwritten a).mpr ⟨i, hi, hseg⟩)
  · rintro ⟨htested, hheader, hvalid, hturns⟩
    refine ⟨?_, ?_, ?_⟩
    · rw [hresult]
      exact hvalid
    · intro a ha
      obtain ⟨i, hi, hseg⟩ := (hwritten a).mp ha
      exact (hturns i hi).2 a hseg
    · intro a ha
      rcases (hreads a).mp ha with ha | ha | ha | ⟨i, hi, ha⟩ | ha
      · exact htested a ha
      · exact hheader a (.inl ha)
      · exact hheader a (.inr (.inl ha))
      · exact turnInside_iff.mp (hturns i hi).1 a ha
      · exact hheader a (.inr (.inr ha))

/-- Of the images that leave their headers alone, `elf_load` rejects what it cannot load exactly if
they need no check. -/
theorem rejects_iff_needsNoCheck (hlen : len ≤ 2 ^ t.ptrBits)
    (hleaves : HeaderAccepted t mem elf → Leaves t mem elf (ReadAgain t mem elf)) :
    RejectsUnloadable t mem elf len ↔ NeedsNoCheck t mem elf len := by
  by_cases h : HeaderAccepted t mem elf
  · rw [rejects_of_accepted (hleaves h) h]
    constructor
    · rintro ⟨htested, hheader, hvalid, hturns⟩
      exact ⟨htested, hleaves, fun _ => hheader, fun _ => hvalid,
        fun _ _ i hi => (hturns i hi).imp_right (inSegment_inRanges hi).mp⟩
    · rintro ⟨htested, -, hheader, hvalid, hvain⟩
      refine ⟨htested, hheader h, hvalid h, ?_⟩
      intro i hi
      rw [inSegment_inRanges hi]
      by_cases hzero : entryPoint t mem elf = 0
      · exact hvain h hzero i hi
      · have hvalid := hvalid h hzero
        exact ⟨hvalid.turnInside hlen hi, fun hload j hlo hj =>
          absurd (Nat.lt_of_le_of_lt hlo hj) (Nat.not_lt.mpr (hvalid.sizes i hi hload))⟩
  · rw [rejects_of_rejected h]
    exact ⟨fun htested => ⟨htested, (absurd · h), (absurd · h), (absurd · h), (absurd · h)⟩,
      NeedsNoCheck.tested⟩

end Rejects

/-- Memory with the header of an executable of x86_64 at `0x400000`. -/
def x64Executable : Bytes := fun a =>
  ([(0x400000, 0x7F), (0x400001, 0x45), (0x400002, 0x4C), (0x400003, 0x46), (0x400004, 2),
    (0x400005, 1), (0x400006, 1), (0x400010, 2), (0x400012, 0x3E), (0x400014, 1),
    (0x400019, 0x10), (0x400020, 64), (0x400034, 64), (0x400036, 56)].lookup a).getD 0

end ZeptoOS
