import ZeptoOS.Lib.Store
import ZeptoOS.Mm.PmmInit

/-!
# Boot — Elf

`elf_load` of `kernel/i386/elf.c` and of `kernel/x64/elf.c`: the image and the segments lie in one
memory, and the headers are read where they stand, `e_phnum` and the sizes at every turn of the
loops, so a segment that is loaded over them changes what the rest of the load does.

An access outside the mapped memory would fault; the model has memory at every address.

`elfLoad_stored`: a load that leaves its headers alone stores to the segments they describe.
-/

namespace ZeptoOS
open Lib

/-! ### The layout of the headers -/

namespace Target

/-- The offset of `e_phoff`. -/
def ePhoff : Target → ℕ
  | i386 => 28
  | x86_64 => 32

/-- The offset of `e_phnum`. -/
def ePhnum : Target → ℕ
  | i386 => 44
  | x86_64 => 56

/-- The size of a program header. -/
def phdrSize : Target → ℕ
  | i386 => 32
  | x86_64 => 56

/-- The offset of `p_offset`. -/
def pOffset : Target → ℕ
  | i386 => 4
  | x86_64 => 8

/-- The offset of `p_vaddr`. -/
def pVaddr : Target → ℕ
  | i386 => 8
  | x86_64 => 16

/-- The offset of `p_filesz`. -/
def pFilesz : Target → ℕ
  | i386 => 16
  | x86_64 => 32

/-- The offset of `p_memsz`. -/
def pMemsz : Target → ℕ
  | i386 => 20
  | x86_64 => 40

section Fields

variable (t : Target)

/-! The members that are read lie in the program header. -/

theorem pOffset_le : t.pOffset + t.ptrBits / 8 ≤ t.phdrSize := by cases t <;> decide
theorem pVaddr_le : t.pVaddr + t.ptrBits / 8 ≤ t.phdrSize := by cases t <;> decide
theorem pFilesz_le : t.pFilesz + t.ptrBits / 8 ≤ t.phdrSize := by cases t <;> decide
theorem pMemsz_le : t.pMemsz + t.ptrBits / 8 ≤ t.phdrSize := by cases t <;> decide
theorem pType_le : 0 + 4 ≤ t.phdrSize := by cases t <;> decide

end Fields

/-- A pointer holds an address modulo its width. -/
def ptr (t : Target) (a : ℕ) : ℕ := a % 2 ^ t.ptrBits

@[simp] theorem ptr_ptr (t : Target) (a : ℕ) : t.ptr (t.ptr a) = t.ptr a := Nat.mod_mod _ _

/-- Below 4 GiB an address is a pointer of either target. -/
theorem ptr_of_lt (t : Target) {a : ℕ} (h : a < 2 ^ 32) : t.ptr a = a :=
  Nat.mod_eq_of_lt (Nat.lt_of_lt_of_le h t.two_pow_le)

/-- The number of the target's width at `a`. -/
def long (t : Target) (mem : Bytes) (a : ℕ) : BitVec t.ptrBits :=
  BitVec.ofNat t.ptrBits (t.le mem a (t.ptrBits / 8))

/-- The addresses of the `n` bytes at `a`. -/
def bytesAt (t : Target) (a n : ℕ) : List ℕ := (List.range n).map fun k => t.ptr (a + k)

theorem mem_bytesAt {t : Target} {p n a : ℕ} : a ∈ t.bytesAt p n ↔ ∃ k < n, a = t.ptr (p + k) := by
  simp only [bytesAt, List.mem_map, List.mem_range, eq_comm]

end Target

/-- Memory, with the bytes stored to. -/
abbrev ByteMem := Store ℕ (BitVec 8)

section Load

variable (t : Target)

/-- `header->e_phnum` -/
def phnum (mem : Bytes) (elf : ℕ) : BitVec 16 := BitVec.ofNat 16 (t.le mem (elf + t.ePhnum) 2)

/-- `program_headers` -/
def programHeaders (mem : Bytes) (elf : ℕ) : ℕ := elf + (t.long mem (elf + t.ePhoff)).toNat

/-- `&program_headers[i]` -/
def phdr (phdrs i : ℕ) : ℕ := phdrs + t.phdrSize * i

/-- The copy of the file's part of a segment. -/
def copySegment (ph destination source : ℕ) (m : ByteMem) : ByteMem :=
  m.setWhile (fun m => t.long m.cell (ph + t.pFilesz)) (fun j => t.ptr (destination + j))
    (fun m j => m.cell (t.ptr (source + j))) 0

/-- The zeros after the file's part. -/
def zeroSegment (ph destination : ℕ) (m : ByteMem) : ByteMem :=
  m.setWhile (fun m => t.long m.cell (ph + t.pMemsz)) (fun j => t.ptr (destination + j))
    (fun _ _ => 0) (t.long m.cell (ph + t.pFilesz)).toNat

/-- One turn of the loop over the program headers. -/
def loadSegment (elf ph : ℕ) (m : ByteMem) : ByteMem :=
  if t.le m.cell ph 4 = 1 then
    let destination := (t.long m.cell (ph + t.pVaddr)).toNat
    let source := elf + (t.long m.cell (ph + t.pOffset)).toNat
    zeroSegment t ph destination (copySegment t ph destination source m)
  else m

/-- The loop over the program headers, from the `i`-th on. -/
def loadSegments (elf phdrs : ℕ) (m : ByteMem) (i : ℕ) : ByteMem :=
  if i < (phnum t m.cell elf).toNat then
    loadSegments elf phdrs (loadSegment t elf (phdr t phdrs i) m) (i + 1)
  else m
termination_by 2 ^ 16 - i
decreasing_by
  have := (phnum t m.cell elf).isLt
  omega

/-- What the two functions do with an image they accept: `e_entry`, and the memory after. -/
def loadImage (elf : ℕ) (m : ByteMem) : BitVec t.ptrBits × ByteMem :=
  let m := loadSegments t elf (programHeaders t m.cell elf) m 0
  -- `e_entry` is read when the segments have been loaded
  (t.long m.cell (elf + 24), m)

end Load

/-- `ELF_MAGIC` -/
def elfMagic : ℕ := 0x464C457F

/-- `elf_load` of `kernel/i386/elf.c` -/
def I386.elfLoad (elf : ℕ) (m : ByteMem) : BitVec 32 × ByteMem :=
  if Target.i386.le m.cell elf 4 ≠ elfMagic then (0, m) else loadImage .i386 elf m

/-- `elf_load` of `kernel/x64/elf.c` -/
def X64.elfLoad (elf : ℕ) (m : ByteMem) : BitVec 64 × ByteMem :=
  let le := Target.x86_64.le m.cell
  if le elf 4 ≠ elfMagic ∨ le (elf + 4) 1 ≠ 2 ∨ le (elf + 18) 2 ≠ 0x3E then (0, m)
  else loadImage .x86_64 elf m

/-- `elf_load` -/
def elfLoad : (t : Target) → ℕ → ByteMem → BitVec t.ptrBits × ByteMem
  | .i386 => I386.elfLoad
  | .x86_64 => X64.elfLoad

/-- An image that is accepted is loaded. -/
theorem elfLoad_eq {t : Target} {elf : ℕ} {m : ByteMem} (h : (elfLoad t elf m).1 ≠ 0) :
    elfLoad t elf m = loadImage t elf m := by
  cases t with
  | i386 =>
      by_cases hmagic : Target.i386.le m.cell elf 4 ≠ elfMagic
      · exact absurd (congrArg Prod.fst (if_pos hmagic)) h
      · exact if_neg hmagic
  | x86_64 =>
      by_cases hident : Target.x86_64.le m.cell elf 4 ≠ elfMagic ∨
          Target.x86_64.le m.cell (elf + 4) 1 ≠ 2 ∨ Target.x86_64.le m.cell (elf + 18) 2 ≠ 0x3E
      · exact absurd (congrArg Prod.fst (if_pos hident)) h
      · exact if_neg hident

/-! ### Segments -/

section Segments

variable (t : Target) (mem : Bytes) (elf : ℕ)

/-- The `i`-th program header describes a segment that is loaded, and `a` is one of its bytes. -/
def InSegment (i a : ℕ) : Prop :=
  let ph := phdr t (programHeaders t mem elf) i
  t.le mem ph 4 = 1 ∧
    ∃ j < max (t.long mem (ph + t.pFilesz)).toNat (t.long mem (ph + t.pMemsz)).toNat,
      a = t.ptr ((t.long mem (ph + t.pVaddr)).toNat + j)

/-- The byte at `a` is one of `e_phnum` or of a program header. -/
def InHeaders (a : ℕ) : Prop :=
  (∃ n < 2, a = t.ptr (elf + t.ePhnum + n)) ∨
    ∃ i < (phnum t mem elf).toNat, ∃ n < t.phdrSize,
      a = t.ptr (phdr t (programHeaders t mem elf) i + n)

/-- The segments leave the bytes of `P`: one that lies over them is loaded onto itself there. -/
def Leaves (P : ℕ → Prop) : Prop :=
  ∀ i < (phnum t mem elf).toNat,
    let ph := phdr t (programHeaders t mem elf) i
    let filesz := (t.long mem (ph + t.pFilesz)).toNat
    let vaddr := (t.long mem (ph + t.pVaddr)).toNat
    t.le mem ph 4 = 1 → ∀ j < max filesz (t.long mem (ph + t.pMemsz)).toNat, P (t.ptr (vaddr + j)) →
      j < filesz ∧ t.ptr (elf + (t.long mem (ph + t.pOffset)).toNat + j) = t.ptr (vaddr + j)

instance (a : ℕ) : Decidable (InHeaders t mem elf a) := inferInstanceAs (Decidable (_ ∨ _))

instance (P : ℕ → Prop) [DecidablePred P] : Decidable (Leaves t mem elf P) :=
  inferInstanceAs (Decidable (∀ i < _, _ → ∀ j < _, _ → _ ∧ _))

end Segments

theorem Target.le_congr {t : Target} {mem mem' : Bytes} :
    ∀ {n a : ℕ}, (∀ i < n, mem' (t.ptr (a + i)) = mem (t.ptr (a + i))) →
      t.le mem' a n = t.le mem a n
  | 0, _, _ => rfl
  | n + 1, a, h => by
      have hrest : t.le mem' (a + 1) n = t.le mem (a + 1) n := by
        refine Target.le_congr fun i hi => ?_
        rw [Nat.add_assoc, Nat.add_comm 1]
        exact h (i + 1) (Nat.succ_lt_succ hi)
      have hfirst : mem' (a % 2 ^ t.ptrBits) = mem (a % 2 ^ t.ptrBits) := h 0 (Nat.succ_pos n)
      rw [Target.le, Target.le, hrest, hfirst]

section Load

variable {t : Target} {mem mem' : Bytes} {elf i : ℕ}

theorem phnum_congr (h : ∀ a, InHeaders t mem elf a → mem' a = mem a) :
    phnum t mem' elf = phnum t mem elf := by
  rw [phnum, phnum, Target.le_congr fun n hn => h _ (.inl ⟨n, hn, rfl⟩)]

/-- A member of a program header is read as it was. -/
theorem member_congr (h : ∀ a, InHeaders t mem elf a → mem' a = mem a)
    (hi : i < (phnum t mem elf).toNat) {off n : ℕ} (hoff : off + n ≤ t.phdrSize) :
    t.le mem' (phdr t (programHeaders t mem elf) i + off) n =
      t.le mem (phdr t (programHeaders t mem elf) i + off) n := by
  refine Target.le_congr fun k hk => h _ (.inr ⟨i, hi, off + k, by omega, ?_⟩)
  rw [Nat.add_assoc]

theorem long_congr (h : ∀ a, InHeaders t mem elf a → mem' a = mem a)
    (hi : i < (phnum t mem elf).toNat) {off : ℕ} (hoff : off + t.ptrBits / 8 ≤ t.phdrSize) :
    t.long mem' (phdr t (programHeaders t mem elf) i + off) =
      t.long mem (phdr t (programHeaders t mem elf) i + off) :=
  congrArg _ (member_congr h hi hoff)

section Leaves

variable {P : ℕ → Prop}

theorem Leaves.mono {Q : ℕ → Prop} (h : Leaves t mem elf P) (hQ : ∀ a, Q a → P a) :
    Leaves t mem elf Q :=
  fun i hi hload j hj ha => h i hi hload j hj (hQ _ ha)

/-- A turn of the copy leaves `P`. -/
theorem Leaves.copy_set (hleaves : Leaves t mem elf P) (hi : i < (phnum t mem elf).toNat)
    (hload : t.le mem (phdr t (programHeaders t mem elf) i) 4 = 1) {m : ByteMem}
    (hm : ∀ a, P a → m.cell a = mem a) {j : ℕ} :
    let ph := phdr t (programHeaders t mem elf) i
    let slot := t.ptr ((t.long mem (ph + t.pVaddr)).toNat + j)
    let source := t.ptr (elf + (t.long mem (ph + t.pOffset)).toNat + j)
    j < (t.long mem (ph + t.pFilesz)).toNat →
      ∀ a, P a → (m.set slot (m.cell source)).cell a = mem a := by
  intro ph slot source hj a ha
  by_cases e : a = slot
  · obtain ⟨-, hself⟩ := hleaves i hi hload j (lt_max_of_lt_left hj) (show P slot from e ▸ ha)
    have hsource : source = a := hself.trans e.symm
    rw [← e, hsource, Store.set_cell_same]
    exact hm a ha
  · exact (Store.set_cell_other e).trans (hm a ha)

/-- A turn of the zeros leaves `P`. -/
theorem Leaves.zero_set (hleaves : Leaves t mem elf P) (hi : i < (phnum t mem elf).toNat)
    (hload : t.le mem (phdr t (programHeaders t mem elf) i) 4 = 1) {m : ByteMem}
    (hm : ∀ a, P a → m.cell a = mem a) {j : ℕ} :
    let ph := phdr t (programHeaders t mem elf) i
    let slot := t.ptr ((t.long mem (ph + t.pVaddr)).toNat + j)
    (t.long mem (ph + t.pFilesz)).toNat ≤ j → j < (t.long mem (ph + t.pMemsz)).toNat →
      ∀ a, P a → (m.set slot 0).cell a = mem a := by
  intro ph slot hlo hj a ha
  refine (Store.set_cell_other fun e => ?_).trans (hm a ha)
  have hself := hleaves i hi hload j (lt_max_of_lt_right hj) (show P slot from e ▸ ha)
  exact absurd hself.1 (Nat.not_lt.mpr hlo)

variable (hP : ∀ a, InHeaders t mem elf a → P a) (hleaves : Leaves t mem elf P)
include hP hleaves

/-- The copy stores to the file's part of the segment, and leaves `P`. -/
theorem copySegment_stored (hi : i < (phnum t mem elf).toNat) {m : ByteMem}
    (hm : ∀ a, P a → m.cell a = mem a)
    (hload : t.le mem (phdr t (programHeaders t mem elf) i) 4 = 1) :
    let ph := phdr t (programHeaders t mem elf) i
    let destination := (t.long mem (ph + t.pVaddr)).toNat
    let m' := copySegment t ph destination (elf + (t.long mem (ph + t.pOffset)).toNat) m
    Store.Stored m m' (fun a => ∃ j, 0 ≤ j ∧ j < (t.long mem (ph + t.pFilesz)).toNat ∧
      a = t.ptr (destination + j)) ∧ ∀ a, P a → m'.cell a = mem a := by
  -- each turn leaves `P`, so the next one tests the size that `mem` has
  exact Store.Stored.setWhile_inv (I := fun m => ∀ a, P a → m.cell a = mem a)
    (fun m' hm' => congrArg _ (long_congr (fun a ha => hm' a (hP a ha)) hi t.pFilesz_le))
    (fun m' j hm' _ hj => hleaves.copy_set hi hload hm' hj) hm

/-- The zeros are stored after the file's part, and leave `P`. -/
theorem zeroSegment_stored (hi : i < (phnum t mem elf).toNat) {m : ByteMem}
    (hm : ∀ a, P a → m.cell a = mem a)
    (hload : t.le mem (phdr t (programHeaders t mem elf) i) 4 = 1) :
    let ph := phdr t (programHeaders t mem elf) i
    let destination := (t.long mem (ph + t.pVaddr)).toNat
    let m' := zeroSegment t ph destination m
    Store.Stored m m' (fun a => ∃ j, (t.long mem (ph + t.pFilesz)).toNat ≤ j ∧
      j < (t.long mem (ph + t.pMemsz)).toNat ∧ a = t.ptr (destination + j)) ∧
      ∀ a, P a → m'.cell a = mem a := by
  dsimp only
  -- `p_filesz`, read again, is where the zeros start
  rw [zeroSegment, long_congr (fun a ha => hm a (hP a ha)) hi t.pFilesz_le]
  exact Store.Stored.setWhile_inv (I := fun m => ∀ a, P a → m.cell a = mem a)
    (fun m' hm' => congrArg _ (long_congr (fun a ha => hm' a (hP a ha)) hi t.pMemsz_le))
    (fun m' j hm' hlo hj => hleaves.zero_set hi hload hm' hlo hj) hm

/-- **One program header.**  While `P` stands, the load of one stores to its segment and leaves
`P`. -/
theorem loadSegment_stored (hi : i < (phnum t mem elf).toNat) {m : ByteMem}
    (hm : ∀ a, P a → m.cell a = mem a) :
    let m' := loadSegment t elf (phdr t (programHeaders t mem elf) i) m
    Store.Stored m m' (InSegment t mem elf i) ∧ ∀ a, P a → m'.cell a = mem a := by
  have hheaders : ∀ a, InHeaders t mem elf a → m.cell a = mem a := fun a ha => hm a (hP a ha)
  have htype := member_congr hheaders hi t.pType_le
  rw [Nat.add_zero] at htype
  dsimp only
  rw [loadSegment, htype, long_congr hheaders hi t.pVaddr_le,
    long_congr hheaders hi t.pOffset_le]
  split
  · rename_i hload
    obtain ⟨hcopy, hcopied⟩ := copySegment_stored hP hleaves hi hm hload
    obtain ⟨hzero, hzeroed⟩ := zeroSegment_stored hP hleaves hi hcopied hload
    refine ⟨(hcopy.trans hzero).congr fun a => ⟨?_, ?_⟩, hzeroed⟩
    · rintro (⟨j, -, hj, rfl⟩ | ⟨j, -, hj, rfl⟩)
      · exact ⟨hload, j, lt_max_of_lt_left hj, rfl⟩
      · exact ⟨hload, j, lt_max_of_lt_right hj, rfl⟩
    · rintro ⟨-, j, hj, rfl⟩
      by_cases hlt : j < (t.long mem (phdr t (programHeaders t mem elf) i + t.pFilesz)).toNat
      · exact .inl ⟨j, Nat.zero_le j, hlt, rfl⟩
      · exact .inr ⟨j, Nat.not_lt.mp hlt, (lt_max_iff.mp hj).resolve_left hlt, rfl⟩
  · rename_i hload
    exact ⟨Store.Stored.none.congr fun a => ⟨False.elim, fun h => hload h.1⟩, hm⟩

/-- The loop over the program headers, from the `i`-th on. -/
theorem loadSegments_stored (i : ℕ) {m : ByteMem} (hm : ∀ a, P a → m.cell a = mem a) :
    let m' := loadSegments t elf (programHeaders t mem elf) m i
    Store.Stored m m' (fun a => ∃ j, i ≤ j ∧ j < (phnum t mem elf).toNat ∧
      InSegment t mem elf j a) ∧ ∀ a, P a → m'.cell a = mem a := by
  dsimp only
  rw [loadSegments, phnum_congr fun a ha => hm a (hP a ha)]
  split
  · rename_i hi
    obtain ⟨hturn, hleft⟩ := loadSegment_stored hP hleaves hi hm
    obtain ⟨hrest, hleft⟩ := loadSegments_stored (i + 1) hleft
    refine ⟨(hturn.trans hrest).congr fun a => ⟨?_, ?_⟩, hleft⟩
    · rintro (hseg | ⟨j, hij, hj, hseg⟩)
      · exact ⟨i, Nat.le_refl i, hi, hseg⟩
      · exact ⟨j, Nat.le_of_succ_le hij, hj, hseg⟩
    · rintro ⟨j, hij, hj, hseg⟩
      by_cases e : j = i
      · exact .inl (e ▸ hseg)
      · exact .inr ⟨j, by omega, hj, hseg⟩
  · rename_i hi
    exact ⟨Store.Stored.none.congr fun a =>
      ⟨False.elim, fun ⟨j, hij, hj, _⟩ => hi (by omega)⟩, hm⟩
termination_by 2 ^ 16 - i
decreasing_by
  have := (phnum t mem elf).isLt
  omega

end Leaves

/-- **A load that leaves its headers alone** stores to the segments they describe. -/
theorem elfLoad_stored {m : ByteMem} (hleaves : Leaves t m.cell elf (InHeaders t m.cell elf))
    (haccepted : (elfLoad t elf m).1 ≠ 0) :
    Store.Stored m (elfLoad t elf m).2
      fun a => ∃ i < (phnum t m.cell elf).toNat, InSegment t m.cell elf i a := by
  rw [elfLoad_eq haccepted]
  exact (loadSegments_stored (fun _ h => h) hleaves 0 fun _ _ => rfl).1.congr fun a =>
    ⟨fun ⟨i, _, hi, hseg⟩ => ⟨i, hi, hseg⟩, fun ⟨i, hi, hseg⟩ => ⟨i, Nat.zero_le i, hi, hseg⟩⟩

end Load

end ZeptoOS
