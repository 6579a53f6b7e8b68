import ZeptoOS.Mm.Pmm

/-!
# Mm — PmmInit

`pmm_init` of `kernel/mm/pmm.c`, for either target.  The targets differ in the width of
`uintptr_t` and in where the compiler puts the members of `multiboot_mmap_entry_t`, which is not
packed: `uint64_t` is aligned to 4 bytes on i386 and to 8 bytes on x86_64.

The memory map and the module list are read from memory byte by byte, the members of
`multiboot_info_t` from a record.  The walk over the map takes fuel, since an entry's size is
whatever the memory holds: `none` is a walk that has not ended within the fuel.

`pmmInit` clears the bits of the pages of usable entries (`mmapLoop`), and then sets those of the
first megabyte, the kernel and the modules (`reserve`); `test_reserve` says what the second part
leaves free.
-/

namespace ZeptoOS
open Lib

/-- The targets of the Makefile. -/
inductive Target where
  | i386
  | x86_64

namespace Target

/-- The bits of `uintptr_t`. -/
def ptrBits : Target → ℕ
  | i386 => 32
  | x86_64 => 64

/-- A pointer holds 32 bits. -/
theorem two_pow_le (t : Target) : 2 ^ 32 ≤ 2 ^ t.ptrBits := by cases t <;> decide

/-- The offset of `base_addr`, after `size` and its padding. -/
def baseAddr : Target → ℕ
  | i386 => 4
  | x86_64 => 8

/-- The offset of `length`. -/
def length : Target → ℕ
  | i386 => 12
  | x86_64 => 16

/-- The offset of `type`. -/
def type : Target → ℕ
  | i386 => 20
  | x86_64 => 24

end Target

/-- Memory, a byte at each address. -/
abbrev Bytes := ℕ → BitVec 8

/-- The little-endian number in `n` bytes at `a`; addresses wrap at the pointer width. -/
def Target.le (t : Target) (mem : Bytes) (a : ℕ) : ℕ → ℕ
  | 0 => 0
  | n + 1 => (mem (a % 2 ^ t.ptrBits)).toNat + 256 * t.le mem (a + 1) n

/-- The members of `multiboot_info_t` that `pmm_init` reads. -/
structure MultibootInfo where
  flags : BitVec 32
  modsCount : BitVec 32
  modsAddr : BitVec 32
  mmapLength : BitVec 32
  mmapAddr : BitVec 32

/-- Where the linker put `_kernel_end`: the kernel starts at 1 MiB, and its last page is one that
32 bits can address. -/
structure KernelImage where
  kernelEnd : ℕ
  start_le : 0x100000 ≤ kernelEnd
  le_last : kernelEnd ≤ 0xFFFFF000

/-- A kernel of one page. -/
def smallKernel : KernelImage := ⟨0x101000, by decide, by decide⟩

section Init

variable (t : Target) (mem : Bytes)

/-- One turn of the map loop: clear the bits of a usable entry at `a`. -/
def freeEntry (b : Bitmap) (a : ℕ) : Bitmap :=
  if t.le mem (a + t.type) 4 = 1 then
    let base := t.le mem (a + t.baseAddr) 8
    let startPage := base / 4096
    let endPage := (base + t.le mem (a + t.length) 8) % 2 ^ 64 / 4096
    b.clearRange startPage (min endPage pmmMaxPages)
  else b

/-- `while ((uintptr_t)mmap < mmap_end)` -/
def mmapLoop (mmapEnd : ℕ) : ℕ → ℕ → Bitmap → Option Bitmap
  | 0, _, _ => none
  | fuel + 1, a, b =>
      if a < mmapEnd then
        mmapLoop mmapEnd fuel ((a + t.le mem a 4 + 4) % 2 ^ t.ptrBits) (freeEntry t mem b a)
      else some b

/-- The address of `mod[m]`. -/
def modAddr (mb : MultibootInfo) (m : ℕ) : ℕ := mb.modsAddr.toNat + 16 * m

/-- `mod[m].mod_start` -/
def modStart (mb : MultibootInfo) (m : ℕ) : ℕ := t.le mem (modAddr mb m) 4

/-- `mod[m].mod_end` -/
def modEnd (mb : MultibootInfo) (m : ℕ) : ℕ := t.le mem (modAddr mb m + 4) 4

/-- The pages of module `m` are marked. -/
def reserveModule (mb : MultibootInfo) (b : Bitmap) (m : ℕ) : Bitmap :=
  b.setRange (modStart t mem mb m / 4096)
    (min ((modEnd t mem mb m + 4095) % 2 ^ 32 / 4096) pmmMaxPages)

/-- The first page after the kernel, as `pmm_init` computes it. -/
def kernelEndPage (k : KernelImage) : ℕ :=
  (k.kernelEnd + 4095) % 2 ^ t.ptrBits / 4096 % 2 ^ 32

/-- What `pmm_init` marks after the map is read. -/
def reserve (k : KernelImage) (mb : MultibootInfo) (b : Bitmap) : Bitmap :=
  let b := b.setRange 0 0x100
  let b := b.setRange (0x100000 / 4096) (min (kernelEndPage t k) pmmMaxPages)
  if mb.flags.getLsbD 3 then
    (List.range mb.modsCount.toNat).foldl (reserveModule t mem mb) b
  else b

/-- `for (i…) pmm_bitmap[i] = 0xFF` -/
def allUsed : Bitmap := fun _ => 0xFF#8

/-- `pmm_init`, with the given fuel for the walk over the map. -/
def pmmInit (k : KernelImage) (mb : MultibootInfo) (fuel : ℕ) : Option Bitmap :=
  let freed :=
    if mb.flags.getLsbD 6 then
      mmapLoop t mem ((mb.mmapAddr.toNat + mb.mmapLength.toNat) % 2 ^ t.ptrBits) fuel
        mb.mmapAddr.toNat allUsed
    else some allUsed
  freed.map (reserve t mem k mb)

end Init

/-! ### What is left free -/

@[simp] theorem test_allUsed (i : ℕ) : bitTest allUsed i = true := by
  rw [bitTest, PackedBits.test_eq, allUsed, show (0xFF#8) = BitVec.allOnes 8 from rfl,
    BitVec.getLsbD_allOnes]
  exact decide_eq_true (Nat.mod_lt _ (by decide))

/-- Page `i` lies in the first megabyte, in the kernel, or in a module. -/
def Reserved (t : Target) (mem : Bytes) (k : KernelImage) (mb : MultibootInfo) (i : ℕ) : Prop :=
  i < 0x100 ∨ (0x100 ≤ i ∧ i < kernelEndPage t k) ∨
    mb.flags.getLsbD 3 = true ∧ ∃ m < mb.modsCount.toNat,
      modStart t mem mb m / 4096 ≤ i ∧ i < (modEnd t mem mb m + 4095) % 2 ^ 32 / 4096

theorem test_reserveModules {t : Target} {mem : Bytes} {mb : MultibootInfo} {i : ℕ}
    (hi : i < pmmMaxPages) (n : ℕ) (b : Bitmap) :
    bitTest ((List.range n).foldl (reserveModule t mem mb) b) i = false ↔
      bitTest b i = false ∧ ¬ ∃ m < n, modStart t mem mb m / 4096 ≤ i ∧
        i < (modEnd t mem mb m + 4095) % 2 ^ 32 / 4096 := by
  induction n with
  | zero => simp
  | succ n ih =>
      rw [List.range_succ, List.foldl_append, List.foldl_cons, List.foldl_nil]
      generalize (List.range n).foldl (reserveModule t mem mb) b = b' at ih ⊢
      simp only [reserveModule, bitTest, PackedBits.test_setRange, Bool.or_eq_false_iff, lt_min_iff,
        hi, and_true, decide_eq_false_iff_not] at ih ⊢
      rw [ih]
      constructor
      · rintro ⟨h₁, h₂, h₃⟩
        refine ⟨h₂, ?_⟩
        rintro ⟨m, hm, h⟩
        by_cases e : m = n
        · exact h₁ (e ▸ h)
        · exact h₃ ⟨m, by omega, h⟩
      · rintro ⟨h₁, h₂⟩
        refine ⟨fun h => h₂ ⟨n, by omega, h⟩, h₁, ?_⟩
        rintro ⟨m, hm, h⟩
        exact h₂ ⟨m, by omega, h⟩

/-- A page is free after the reservations if it was before and is not reserved. -/
theorem test_reserve {t : Target} {mem : Bytes} {k : KernelImage} {mb : MultibootInfo}
    {b : Bitmap} {i : ℕ} (hi : i < pmmMaxPages) :
    bitTest (reserve t mem k mb b) i = false ↔
      bitTest b i = false ∧ ¬ Reserved t mem k mb i := by
  have hlow : bitTest ((b.setRange 0 0x100).setRange (0x100000 / 4096)
      (min (kernelEndPage t k) pmmMaxPages)) i = false ↔
      bitTest b i = false ∧ ¬ i < 0x100 ∧ ¬ (0x100 ≤ i ∧ i < kernelEndPage t k) := by
    simp only [bitTest, PackedBits.test_setRange, Bool.or_eq_false_iff, lt_min_iff, hi, and_true,
      decide_eq_false_iff_not, Nat.zero_le, true_and, Nat.reduceDiv]
    tauto
  simp only [reserve, Reserved]
  split
  · rename_i hflag
    rw [test_reserveModules hi, hlow]
    simp only [hflag, true_and, not_or, and_assoc]
  · rename_i hflag
    rw [hlow]
    simp only [hflag, Bool.false_eq_true, false_and, or_false, not_or]

theorem pmmInit_some {t : Target} {mem : Bytes} {k : KernelImage} {mb : MultibootInfo}
    {fuel : ℕ} {b : Bitmap} (h : pmmInit t mem k mb fuel = some b) :
    ∃ b', b = reserve t mem k mb b' := by
  obtain ⟨b', -, rfl⟩ := Option.map_eq_some_iff.mp h
  exact ⟨b', rfl⟩

/-- **`pmm_init` frees no reserved page.** -/
theorem pmmInit_not_reserved {t : Target} {mem : Bytes} {k : KernelImage} {mb : MultibootInfo}
    {fuel : ℕ} {b : Bitmap} (h : pmmInit t mem k mb fuel = some b) {i : ℕ}
    (hi : i < pmmMaxPages) (hfree : bitTest b i = false) : ¬ Reserved t mem k mb i := by
  obtain ⟨b', rfl⟩ := pmmInit_some h
  exact ((test_reserve hi).mp hfree).2

theorem pmmInit_low {t : Target} {mem : Bytes} {k : KernelImage} {mb : MultibootInfo}
    {fuel : ℕ} {b : Bitmap} (h : pmmInit t mem k mb fuel = some b) : LowReserved b := by
  intro i hi
  by_contra hfree
  refine pmmInit_not_reserved h ?_ (by simpa using hfree) (.inl hi)
  simp only [pmmMaxPages]
  omega

/-- On either target the kernel's pages are those that start before its end. -/
theorem lt_kernelEndPage {t : Target} {k : KernelImage} {i : ℕ} :
    i < kernelEndPage t k ↔ i * 4096 < k.kernelEnd := by
  have hk := k.le_last
  cases t <;> simp only [kernelEndPage, Target.ptrBits] <;> omega

end ZeptoOS
