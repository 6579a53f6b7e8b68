import ZeptoOS.Mm.PmmInit
import ZeptoOS.X64.Vmm

/-!
# X64 — Boot

`setup_page_tables` of `kernel/x64/boot.s`, and the system it leaves: one PML4 with one PDPT and
one page directory, whose 512 entries map 2 MiB each.  `kernel_pd` is the PML4 (`init_paging`
takes it out of `cr3`).

`boot_inv`: the three tables are typed, with the entries of the page directory foreign to the
typing.  An address from 1 GiB on does not go through them (`managed_path`).
-/

namespace ZeptoOS.X64
open Lib

/-- `pml4_table`, `pdpt_table` and `pd_table`, three pages of the kernel's `.bss` in a row. -/
structure BootTables (k : KernelImage) where
  pml4 : ℕ
  aligned : pml4 % 4096 = 0
  low : 0x100000 ≤ pml4
  fits : pml4 + 0x3000 ≤ k.kernelEnd

namespace BootTables

variable {k : KernelImage} (t : BootTables k)

def pdpt : ℕ := t.pml4 + 0x1000

def pd : ℕ := t.pml4 + 0x2000

/-- The kernel's `.bss` is zero when the boot code starts. -/
def BssZero (mem : Store ℕ Word) : Prop :=
  ∀ i, fmt.entry mem t.pml4 i = 0 ∧ fmt.entry mem t.pdpt i = 0

/-- `or eax, 0x07`, stored with a zero upper half -/
def link (table : ℕ) : Word := (BitVec.ofNat 32 table ||| 0x07).setWidth 64

/-- `shl eax, 21; or eax, 0x87`, stored with a zero upper half -/
def large (ecx : Fin 512) : Word := (BitVec.ofNat 32 ecx <<< 21 ||| 0x87).setWidth 64

/-- `setup_page_tables` -/
def setupPageTables (mem : Store ℕ Word) : Store ℕ Word :=
  let mem := mem.set t.pml4 (link t.pdpt)
  let mem := mem.set t.pdpt (link t.pd)
  mem.setAll (fun ecx : Fin 512 => t.pd + ecx * 8) large (List.finRange 512)

/-- The system after `init_paging`, over a bitmap that `pmm_init` left. -/
def boot (mem : Store ℕ Word) (b : Bitmap) : System :=
  ⟨⟨t.setupPageTables mem, b⟩, t.pml4, []⟩

end BootTables

/-! ### The boot tables -/

section Tables

variable {k : KernelImage} {t : BootTables k} {mem : Store ℕ Word}

theorem BootTables.valid {p : ℕ} (hp : p = t.pml4 ∨ p = t.pdpt ∨ p = t.pd) : PageAddr 52 p := by
  have h₁ := t.aligned
  have h₂ := t.low
  have h₃ := t.fits
  have h₄ := k.le_last
  simp only [BootTables.pdpt, BootTables.pd] at hp
  refine ⟨?_, ?_, ?_⟩ <;> omega

theorem BootTables.link_eq {p : ℕ} (hp : p = t.pdpt ∨ p = t.pd) :
    BootTables.link p = fmt.link p := by
  have h₃ := t.fits
  have h₄ := k.le_last
  have hlt : p < 2 ^ 32 := by
    simp only [BootTables.pdpt, BootTables.pd] at hp
    omega
  have hp : (BitVec.ofNat 32 p).setWidth 64 = BitVec.ofNat 64 p := by
    refine BitVec.eq_of_toNat_eq ?_
    rw [BitVec.toNat_setWidth, BitVec.toNat_ofNat, BitVec.toNat_ofNat]
    omega
  rw [BootTables.link, BitVec.setWidth_or, hp, ← X64.link_eq, BitVec.or_assoc, BitVec.or_assoc]
  rfl

theorem BootTables.slot_pd (i : Fin 512) : t.pd + i * 8 = slot t.pd i := by
  rw [slot, Nat.mul_comm]

theorem setup_pd (i : Fin 512) :
    fmt.entry (t.setupPageTables mem) t.pd i = BootTables.large i := by
  rw [Format.entry, ← slot_eq, ← BootTables.slot_pd, BootTables.setupPageTables]
  have hinj : ∀ j ∈ List.finRange 512, t.pd + i * 8 = t.pd + j * 8 → i = j :=
    fun j _ e => Fin.ext (by omega)
  exact Store.setAll_cell_slot hinj (List.mem_finRange i)

/-- A table before the page directory keeps what the two links left. -/
theorem setup_other {p : ℕ} (hp : PageAddr 52 p) (hne : p ≠ t.pd) (i : Fin 512) :
    fmt.entry (t.setupPageTables mem) p i =
      fmt.entry ((mem.set t.pml4 (BootTables.link t.pdpt)).set t.pdpt (BootTables.link t.pd))
        p i := by
  rw [Format.entry, BootTables.setupPageTables]
  refine Store.setAll_cell_other fun j _ e => hne ?_
  exact (fmt.slot_inj hp (BootTables.valid (t := t) (.inr (.inr rfl)))
    (e.trans (BootTables.slot_pd j))).1

theorem setup_pml4 (h0 : t.BssZero mem) (i : Fin 512) :
    fmt.entry (t.setupPageTables mem) t.pml4 i = if i = 0 then fmt.link t.pdpt else 0 := by
  have hv := BootTables.valid (t := t) (.inl rfl)
  rw [setup_other hv (by simp [BootTables.pd]), Format.entry, Store.set_cell_other, ← slot_eq]
  · split
    · rename_i e
      subst e
      exact (Store.set_cell_same _ _ _).trans (BootTables.link_eq (.inl rfl))
    · rename_i e
      rw [Store.set_cell_other]
      · exact (h0 i).1
      · intro h
        simp only [slot] at h
        exact e (Fin.ext (by simp only [Fin.val_zero]; omega))
  · rw [← slot_eq, slot, BootTables.pdpt]
    omega

theorem setup_pdpt (h0 : t.BssZero mem) (i : Fin 512) :
    fmt.entry (t.setupPageTables mem) t.pdpt i = if i = 0 then fmt.link t.pd else 0 := by
  have hv := BootTables.valid (t := t) (.inr (.inl rfl))
  rw [setup_other hv (by simp [BootTables.pd, BootTables.pdpt]), Format.entry, ← slot_eq]
  split
  · rename_i e
    subst e
    exact (Store.set_cell_same _ _ _).trans (BootTables.link_eq (.inr rfl))
  · rename_i e
    rw [Store.set_cell_other, Store.set_cell_other]
    · exact (h0 i).2
    · rw [slot, BootTables.pdpt]
      omega
    · intro h
      simp only [slot] at h
      exact e (Fin.ext (by simp only [Fin.val_zero]; omega))

/-! ### The typing of the boot tables -/

/-- The entries that map 2 MiB: those of the boot page directory. -/
def Large (π : List (Fin 512)) : Prop := ∃ i, π = [0, 0, i]

/-- The boot tables and where they hang. -/
def bootTyping (t : BootTables k) (p : ℕ) : Option (List (Fin 512) × ℕ) :=
  if p = t.pml4 then some ([], t.pml4)
  else if p = t.pdpt then some ([0], t.pml4)
  else if p = t.pd then some ([0, 0], t.pml4)
  else none

theorem bootTyping_some {p : ℕ} {x : List (Fin 512) × ℕ} (h : bootTyping t p = some x) :
    p = t.pml4 ∧ x = ([], t.pml4) ∨ p = t.pdpt ∧ x = ([0], t.pml4) ∨
      p = t.pd ∧ x = ([0, 0], t.pml4) := by
  simp only [bootTyping] at h
  split_ifs at h with h₁ h₂ h₃
  · exact .inl ⟨h₁, (Option.some.inj h).symm⟩
  · exact .inr (.inl ⟨h₂, (Option.some.inj h).symm⟩)
  · exact .inr (.inr ⟨h₃, (Option.some.inj h).symm⟩)

theorem bootTyping_pdpt : bootTyping t t.pdpt = some ([0], t.pml4) := by
  simp [bootTyping, BootTables.pdpt]

theorem bootTyping_pd : bootTyping t t.pd = some ([0, 0], t.pml4) := by
  simp [bootTyping, BootTables.pd, BootTables.pdpt]

/-- The bitmap marks the kernel's pages. -/
def KernelReserved (k : KernelImage) (b : Bitmap) : Prop :=
  LowReserved b ∧ ∀ p, PageFree b p → k.kernelEnd ≤ p

theorem pmmInit_kernelReserved {mem : Bytes} {mb : MultibootInfo} {fuel : ℕ} {b : Bitmap}
    (h : pmmInit .x86_64 mem k mb fuel = some b) : KernelReserved k b := by
  refine ⟨pmmInit_low h, fun p hp => ?_⟩
  by_contra hlt
  obtain ⟨hlo, -⟩ := (pmmInit_low h).page hp
  obtain ⟨hal, hmax, hfree⟩ := hp
  exact pmmInit_not_reserved h hmax hfree
    (.inr (.inl ⟨by omega, lt_kernelEndPage.mpr (by omega)⟩))

/-- A page of the pool is a page address. -/
theorem KernelReserved.pool {b : Bitmap} (hb : KernelReserved k b) {p : ℕ} (hp : PageFree b p) :
    PageAddr 52 p := by
  obtain ⟨hlo, hhi⟩ := hb.1.page hp
  exact ⟨hp.1, by omega, by omega⟩

theorem boot_typed {b : Bitmap} (h0 : t.BssZero mem) (hb : KernelReserved k b) :
    fmt.Typed pagePool ⟨4, t.pml4, Large⟩ (bootTyping t) ⟨t.setupPageTables mem, b⟩ where
  valid {p x} h := BootTables.valid <| by
    rcases bootTyping_some h with ⟨h, -⟩ | ⟨h, -⟩ | ⟨h, -⟩
    · exact .inl h
    · exact .inr (.inl h)
    · exact .inr (.inr h)
  busy {p x} h hfree := by
    have h₁ := hb.2 p hfree
    have h₂ := t.fits
    rcases bootTyping_some h with ⟨rfl, -⟩ | ⟨rfl, -⟩ | ⟨rfl, -⟩
    · omega
    · rw [BootTables.pdpt] at h₁
      omega
    · rw [BootTables.pd] at h₁
      omega
  short {p x} h := by
    rcases bootTyping_some h with ⟨-, rfl⟩ | ⟨-, rfl⟩ | ⟨-, rfl⟩ <;> simp
  edge {p x i} h _ hf hp := by
    rcases bootTyping_some h with ⟨rfl, rfl⟩ | ⟨rfl, rfl⟩ | ⟨rfl, rfl⟩
    · have hv := BootTables.valid (t := t) (p := t.pdpt) (.inr (.inl rfl))
      simp only [setup_pml4 h0] at hp ⊢
      split at hp
      · rename_i e
        subst e
        rw [if_pos rfl, fmt.target_link hv]
        exact ⟨fmt.large_link hv, _, bootTyping_pdpt, .inl rfl⟩
      · exact absurd (fmt.present_zero) (by rw [show fmt.zero = 0 from rfl, hp]; decide)
    · have hv := BootTables.valid (t := t) (p := t.pd) (.inr (.inr rfl))
      simp only [setup_pdpt h0] at hp ⊢
      split at hp
      · rename_i e
        subst e
        rw [if_pos rfl, fmt.target_link hv]
        exact ⟨fmt.large_link hv, _, bootTyping_pd, .inl rfl⟩
      · exact absurd (fmt.present_zero) (by rw [show fmt.zero = 0 from rfl, hp]; decide)
    · exact absurd ⟨i, rfl⟩ hf
  pool := hb.pool

/-- **The system after `init_paging`** is typed. -/
theorem boot_inv {b : Bitmap} (h0 : t.BssZero mem) (hb : KernelReserved k b) :
    Inv fmt pagePool 4 Large (bootTyping t) (t.boot mem b) where
  typed := boot_typed h0 hb
  root r hr := by
    obtain rfl : r = t.pml4 := by simpa [Spaces.roots, BootTables.boot] using hr
    exact if_pos rfl
  apart := List.not_mem_nil
  nodup := List.nodup_nil

/-- No entry of 2 MiB covers the address. -/
def OutsideLarge (virt : Word) : Prop := ¬ (pml4Index virt = 0 ∧ pdptIndex virt = 0)

instance (virt : Word) : Decidable (OutsideLarge virt) :=
  inferInstanceAs (Decidable (¬ (_ ∧ _)))

/-- Of the canonical addresses those from 1 GiB on. -/
theorem outsideLarge_iff {virt : Word} (hc : Canonical virt) :
    OutsideLarge virt ↔ 2 ^ 30 ≤ virt.toNat := by
  simp only [OutsideLarge, pml4Index, pdptIndex, index_toNat, Fin.ext_iff, Fin.val_ofNat,
    Fin.val_zero]
  simp only [Canonical] at hc
  have := virt.isLt
  omega

theorem OutsideLarge.managed {virt : Word} (h : OutsideLarge virt) {base : ℕ} :
    (⟨4, base, Large⟩ : Plan (Fin 512) ℕ).Managed [] (path virt) := by
  refine ⟨?_, ?_, ?_, trivial⟩
  · rintro ⟨i, e⟩
    simp at e
  · rintro ⟨i, e⟩
    simp at e
  · rintro ⟨i, e⟩
    simp only [List.nil_append, List.cons_append, List.cons.injEq] at e
    exact h ⟨e.1, e.2.1⟩

/-- The address is canonical, and from 1 GiB on. -/
def AboveLarge (virt : Word) : Prop := Canonical virt ∧ 2 ^ 30 ≤ virt.toNat

instance (virt : Word) : Decidable (AboveLarge virt) := instDecidableAnd

theorem AboveLarge.outside {virt : Word} (h : AboveLarge virt) : OutsideLarge virt :=
  (outsideLarge_iff h.1).mpr h.2

/-- The call is not on an address that an entry of 2 MiB covers. -/
def Plain : VmmCall 64 → Prop
  | .create => True
  | .map _ virt _ _ | .unmap _ virt => OutsideLarge virt

theorem Plain.fits {call : VmmCall 64} (h : Plain call) : (toOp call).Fits 4 Large := by
  cases call with
  | create => trivial
  | map pd virt phys flags => exact ⟨OutsideLarge.managed h, rfl⟩
  | unmap pd virt => exact ⟨OutsideLarge.managed h, rfl⟩

end Tables

/-! ### A machine -/

/-- A kernel with its page tables at its start. -/
def bootKernel : KernelImage := ⟨0x104000, by decide, by decide⟩

def bootTables : BootTables bootKernel := ⟨0x101000, by decide, smallKernel.start_le, by decide⟩

/-- All pages in use but the eight at 2 MiB. -/
def bootBitmap : Bitmap := fun n => if n = 64 then 0 else 0xFF

theorem bootBitmap_free {i : ℕ} : bitTest bootBitmap i = false ↔ 512 ≤ i ∧ i < 520 := by
  rw [bitTest, PackedBits.test_eq, bootBitmap]
  split
  · simp
    omega
  · rw [show (0xFF : BitVec 8) = BitVec.allOnes 8 from rfl, BitVec.getLsbD_allOnes,
      decide_eq_true (Nat.mod_lt _ (by decide))]
    simp
    omega

theorem bootBitmap_kernelReserved : KernelReserved bootKernel bootBitmap := by
  refine ⟨fun i hi => ?_, fun p hp => ?_⟩
  · by_contra h
    have := bootBitmap_free.mp (Bool.not_eq_true _ ▸ h)
    omega
  · have := bootBitmap_free.mp hp.2.2
    simp only [bootKernel]
    omega

theorem bootBitmap_has : pagePool.Has 8 bootBitmap := by
  refine pagePool_has (l := (List.range 8).map fun i => 0x200000 + i * 4096) (by decide) ?_
    (by decide)
  intro p hp
  obtain ⟨i, hi, rfl⟩ := List.mem_map.mp hp
  have := List.mem_range.mp hi
  refine ⟨by omega, by simp only [pmmMaxPages]; omega, bootBitmap_free.mpr ?_⟩
  omega

/-- The machine after boot, with memory otherwise zero. -/
def bootSystem : System := bootTables.boot ⟨fun _ => 0, []⟩ bootBitmap

theorem bootSystem_root : 0x101000 ∈ bootSystem.roots := List.mem_cons_self

end ZeptoOS.X64
