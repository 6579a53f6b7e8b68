import ZeptoOS.Mm.Vmm

/-!
# X64 — Vmm

`kernel/x64/vmm.c`: four levels of tables.  The functions are written as the source has them;
`none` is `pmm_alloc`'s panic.  They are then the library's: `pageTable_eq`, `vmmMapPage_eq` and
`vmmUnmapPage_eq` for the walker that knows no large entries, `vmmGetPhysAddr_eq` for the one
that does, which agrees on typed tables only.

`invlpg` and the reloading of `cr3` have no part in what the tables say and are left out.
-/

namespace ZeptoOS.X64
open Lib

/-- An entry, and `uintptr_t`. -/
abbrev Word := BitVec 64

/-- Memory, and `pmm_bitmap`. -/
abbrev Machine := Heap ℕ Word Bitmap

/-- `0x000FFFFFFFFFF000ULL` -/
def frameMask : Word := 0x000FFFFFFFFFF000

/-- `0x000FFFFFFFE00000ULL` -/
def largeMask : Word := 0x000FFFFFFFE00000

/-- The bit of a page directory entry that maps 2 MiB. -/
def isLarge (e : Word) : Bool := e &&& 0x80 != 0

instance neZero_entries : NeZero 512 := ⟨by decide⟩

def pml4Index (virt : Word) : Fin 512 := Fin.ofNat 512 ((virt >>> 39) &&& 0x1FF).toNat

def pdptIndex (virt : Word) : Fin 512 := Fin.ofNat 512 ((virt >>> 30) &&& 0x1FF).toNat

def pdIndex (virt : Word) : Fin 512 := Fin.ofNat 512 ((virt >>> 21) &&& 0x1FF).toNat

def ptIndex (virt : Word) : Fin 512 := Fin.ofNat 512 ((virt >>> 12) &&& 0x1FF).toNat

/-- `&table[index]` -/
def slot (table : ℕ) (index : Fin 512) : ℕ := table + 8 * index

/-- `(uint64_t*)(uintptr_t)(entry & 0x000FFFFFFFFFF000ULL)` -/
def tableOf (entry : Word) : ℕ := (entry &&& frameMask).toNat

/-- `clear_page`, by words -/
def clearPage (mem : Store ℕ Word) (page : ℕ) : Store ℕ Word :=
  mem.setAll (slot page) (fun _ => 0) (List.finRange 512)

/-- `next_table` -/
def nextTable (h : Machine) (table : ℕ) (index : Fin 512) (create : Bool) :
    Option (ℕ × Machine) :=
  if h.mem.cell (slot table index) &&& pagePresent = 0 then
    if !create then some (0, h)
    else do
      let (page, pool) ← pmmAlloc h.pool
      let mem := clearPage h.mem page
      let mem := mem.set (slot table index)
        (BitVec.ofNat 64 page ||| pagePresent ||| pageWrite ||| pageUser)
      some (tableOf (mem.cell (slot table index)), ⟨mem, pool⟩)
  else some (tableOf (h.mem.cell (slot table index)), h)

/-- `page_table` -/
def pageTable (h : Machine) (root : ℕ) (virt : Word) (create : Bool) : Option (ℕ × Machine) := do
  let (pdpt, h) ← nextTable h root (pml4Index virt) create
  if pdpt = 0 then some (0, h)
  else
    let (pd, h) ← nextTable h pdpt (pdptIndex virt) create
    if pd = 0 then some (0, h) else nextTable h pd (pdIndex virt) create

/-- `vmm_create_address_space` -/
def vmmCreateAddressSpace (h : Machine) (kernelPd : ℕ) : Option (ℕ × Machine) := do
  let (pageDirectory, pool) ← pmmAlloc h.pool
  let mem := clearPage h.mem pageDirectory
  let mem := (List.finRange 512).foldl
    (fun mem i => mem.set (slot pageDirectory i) (mem.cell (slot kernelPd i))) mem
  some (pageDirectory, ⟨mem, pool⟩)

/-- `vmm_map_page` -/
def vmmMapPage (h : Machine) (pageDirectory : ℕ) (virt phys flags : Word) : Option Machine := do
  let (table, h) ← pageTable h pageDirectory virt true
  if table = 0 then some h
  else
    let entry := (phys &&& frameMask) ||| flags ||| pagePresent
    some ⟨h.mem.set (slot table (ptIndex virt)) entry, h.pool⟩

/-- `vmm_unmap_page` -/
def vmmUnmapPage (h : Machine) (pageDirectory : ℕ) (virt : Word) : Option Machine := do
  let (table, h) ← pageTable h pageDirectory virt false
  if table = 0 then some h
  else some ⟨h.mem.set (slot table (ptIndex virt)) 0, h.pool⟩

/-- `vmm_get_phys_addr` -/
def vmmGetPhysAddr (mem : Store ℕ Word) (pageDirectory : ℕ) (virt : Word) : Word :=
  let pml4e := mem.cell (slot pageDirectory (pml4Index virt))
  if pml4e &&& pagePresent = 0 then 0
  else
    let pdpte := mem.cell (slot (tableOf pml4e) (pdptIndex virt))
    if pdpte &&& pagePresent = 0 then 0
    else
      let pde := mem.cell (slot (tableOf pdpte) (pdIndex virt))
      if pde &&& pagePresent = 0 then 0
      else if pde &&& 0x80 ≠ 0 then (pde &&& largeMask) ||| (virt &&& 0x1FFFFF)
      else
        let pte := mem.cell (slot (tableOf pde) (ptIndex virt))
        if pte &&& pagePresent = 0 then 0
        else (pte &&& frameMask) ||| (virt &&& 0xFFF)

/-! ### As radix tables -/

theorem frameMask_bits : FrameMask frameMask 52 where
  top_le := by decide
  le_top := by decide
  bits i hi := by
    have h : ∀ i : Fin 64, frameMask.getLsbD i = decide (12 ≤ i.val ∧ i.val < 52) := by decide
    exact h ⟨i, hi⟩

/-- An aligned address has no bit of a large entry. -/
theorem isLarge_link {p : ℕ} (hp : p % 4096 = 0) :
    isLarge (BitVec.ofNat 64 p ||| pagePresent ||| pageWrite ||| pageUser) = false := by
  have h : BitVec.ofNat 64 p &&& 0x80 = 0 := by
    refine BitVec.eq_of_toNat_eq ?_
    obtain ⟨q, rfl⟩ : ∃ q, p = 2 ^ 12 * q := ⟨p / 4096, by omega⟩
    refine Nat.eq_of_testBit_eq fun i => ?_
    have hbit : (128 : ℕ).testBit i = decide (7 = i) := Nat.testBit_two_pow (n := 7)
    simp only [BitVec.toNat_and, BitVec.toNat_ofNat, Nat.testBit_and, Nat.testBit_mod_two_pow,
      Nat.testBit_two_pow_mul]
    change (_ && (128 : ℕ).testBit i) = (0 : ℕ).testBit i
    rw [hbit, Nat.zero_testBit]
    by_cases e : 7 = i
    · subst e
      simp
    · simp [e]
  rw [isLarge, BitVec.or_assoc, BitVec.or_assoc, BitVec.and_or_distrib_right, h]
  rfl

theorem shape : PageShape 512 8 52 frameMask isLarge where
  page := rfl
  frames := frameMask_bits
  flags := by decide
  small hp _ := isLarge_link hp

/-- The tables of this target. -/
def fmt : Format ℕ Word ℕ (Fin 512) := pageFormat 512 8 52 frameMask isLarge shape

/-- The indices of the tables that a walk for `virt` goes through. -/
def path (virt : Word) : List (Fin 512) := [pml4Index virt, pdptIndex virt, pdIndex virt]

theorem slot_eq (p : ℕ) (i : Fin 512) : slot p i = fmt.slot p i := rfl

theorem tableOf_eq (e : Word) : tableOf e = fmt.target e := rfl

theorem link_eq (p : ℕ) :
    (BitVec.ofNat 64 p ||| pagePresent ||| pageWrite ||| pageUser : Word) = fmt.link p := rfl

theorem indices_eq : List.finRange 512 = fmt.indices := by
  rw [fmt, pageFormat]

theorem clearPage_eq (m : Store ℕ Word) (p : ℕ) : clearPage m p = fmt.clear m p := by
  rw [clearPage, Format.clear, indices_eq]
  rfl

theorem present_iff {e : Word} : fmt.present e = true ↔ ¬ e &&& pagePresent = 0 :=
  bne_iff_ne

theorem absent_iff {e : Word} : fmt.present e = false ↔ e &&& pagePresent = 0 :=
  bne_eq_false_iff_eq

theorem large_iff {e : Word} : fmt.large e = false ↔ e &&& 0x80 = 0 :=
  bne_eq_false_iff_eq

theorem nextTable_eq (h : Machine) (table : ℕ) (index : Fin 512) (create : Bool) :
    nextTable h table index create = fmt.next pagePool h table index create := by
  by_cases hp : h.mem.cell (slot table index) &&& pagePresent = 0
  · have hf : ¬ fmt.present (fmt.entry h.mem table index) = true := fun h => present_iff.mp h hp
    rw [nextTable, Format.next, if_pos hp, if_neg hf]
    cases create with
    | false => rfl
    | true =>
        simp only [Bool.not_true, Bool.false_eq_true, if_false, if_true, pagePool, clearPage_eq,
          slot_eq, link_eq, tableOf_eq, Option.map_eq_bind]
        rfl
  · have hf : fmt.present (fmt.entry h.mem table index) = true := present_iff.mpr hp
    rw [nextTable, Format.next, if_neg hp, if_pos hf]
    rfl

/-- `page_table` walks down three links. -/
theorem pageTable_eq (h : Machine) (root : ℕ) (virt : Word) (create : Bool) :
    pageTable h root virt create = fmt.descend pagePool h root (path virt) create := by
  have h₀ : fmt.null = 0 := rfl
  simp only [pageTable, path, Format.descend, nextTable_eq, h₀, Option.bind_eq_bind]
  refine congrArg _ (funext fun x => ?_)
  split
  · rename_i e
    exact congrArg some (Prod.ext e.symm rfl)
  · refine congrArg _ (funext fun y => ?_)
    split
    · rename_i e
      exact congrArg some (Prod.ext e.symm rfl)
    · cases fmt.next pagePool y.2 y.1 (pdIndex virt) create <;> simp

theorem vmmCreateAddressSpace_eq (h : Machine) (kernelPd : ℕ) :
    vmmCreateAddressSpace h kernelPd = fmt.copyRoot pagePool h kernelPd := by
  simp only [vmmCreateAddressSpace, Format.copyRoot, Option.map_eq_bind, Format.copySlots,
    clearPage_eq, slot_eq, indices_eq]
  rfl

theorem vmmMapPage_eq (h : Machine) (pd : ℕ) (virt phys flags : Word) :
    vmmMapPage h pd virt phys flags =
      fmt.mapLeaf pagePool h pd (path virt) (ptIndex virt)
        ((phys &&& frameMask) ||| flags ||| pagePresent) := by
  rw [vmmMapPage, pageTable_eq, Format.mapLeaf, Option.map_eq_bind]
  exact congrArg _ (funext fun x => (apply_ite some ..).symm)

theorem vmmUnmapPage_eq (h : Machine) (pd : ℕ) (virt : Word) :
    vmmUnmapPage h pd virt = fmt.unmapLeaf pagePool h pd (path virt) (ptIndex virt) := by
  rw [vmmUnmapPage, pageTable_eq, Format.unmapLeaf, Option.map_eq_bind]
  exact congrArg _ (funext fun x => (apply_ite some ..).symm)

/-! ### Addresses -/

/-- Bits 47 to 63 are one bit. -/
def Canonical (virt : Word) : Prop := virt.toNat < 2 ^ 47 ∨ 2 ^ 64 - 2 ^ 47 ≤ virt.toNat

instance (virt : Word) : Decidable (Canonical virt) := instDecidableOr

theorem index_toNat {virt : Word} {k : ℕ} :
    ((virt >>> k) &&& (0x1FF : Word)).toNat = virt.toNat / 2 ^ k % 512 := by
  rw [BitVec.toNat_and, BitVec.toNat_ushiftRight, Nat.shiftRight_eq_div_pow]
  exact Nat.and_two_pow_sub_one_eq_mod _ 9

theorem index_eq_iff {m n : ℕ} : Fin.ofNat 512 (m % 512) = Fin.ofNat 512 (n % 512) ↔
    m % 512 = n % 512 := by
  simp [Fin.ext_iff]

/-- Canonical addresses with the same indices are on the same page. -/
theorem samePage_iff {v v' : Word} (hv : Canonical v) (hv' : Canonical v') :
    SamePage v v' ↔ (path v, ptIndex v) = (path v', ptIndex v') := by
  simp only [SamePage, path, pml4Index, pdptIndex, pdIndex, ptIndex, Prod.mk.injEq,
    List.cons.injEq, and_true, index_toNat, index_eq_iff]
  simp only [Canonical] at hv hv'
  have := v.isLt
  have := v'.isLt
  omega

/-! ### Translations -/

/-- The translation a last-level entry gives. -/
def translate (pte virt : Word) : Word :=
  if pte &&& pagePresent = 0 then 0 else (pte &&& frameMask) ||| (virt &&& 0xFFF)

theorem translate_absent {m : Store ℕ Word} {p : ℕ} {i j : Fin 512} {is : List (Fin 512)}
    {virt : Word} (hp : m.cell (slot p i) &&& pagePresent = 0) :
    translate (fmt.lookup m p (i :: is) j) virt = 0 := by
  rw [Format.lookup_absent (absent_iff.mpr hp)]
  rfl

theorem lookup_down {m : Store ℕ Word} {p : ℕ} {i j : Fin 512} {is : List (Fin 512)}
    (hp : ¬ m.cell (slot p i) &&& pagePresent = 0) (hl : fmt.large (fmt.entry m p i) = false) :
    fmt.lookup m p (i :: is) j = fmt.lookup m (tableOf (m.cell (slot p i))) is j :=
  Format.lookup_cons (present_iff.mpr hp) hl is j

section Typed

variable {base : ℕ} {Foreign : List (Fin 512) → Prop} {h : Machine}
  {c : ℕ → Option (List (Fin 512) × ℕ)}

/-- On typed tables `vmm_get_phys_addr` reads the leaf the other walker reaches: there is no
large entry for it to see. -/
theorem vmmGetPhysAddr_eq (T : fmt.Typed pagePool ⟨4, base, Foreign⟩ c h) {pd o : ℕ}
    (hpd : c pd = some ([], o)) {virt : Word}
    (hm : (⟨4, base, Foreign⟩ : Plan (Fin 512) ℕ).Managed [] (path virt)) :
    vmmGetPhysAddr h.mem pd virt =
      translate (fmt.lookup h.mem pd (path virt) (ptIndex virt)) virt := by
  obtain ⟨hm₁, hm₂, hm₃, -⟩ := hm
  simp only [path, vmmGetPhysAddr]
  -- level by level: the entry is absent, or leads to the next typed table
  split
  · rename_i hp
    exact (translate_absent hp).symm
  rename_i hp₁
  obtain ⟨hl₁, o₁, ht₁, -⟩ := T.edge hpd (by simp) hm₁ (present_iff.mpr hp₁)
  rw [lookup_down hp₁ hl₁]
  split
  · rename_i hp
    exact (translate_absent hp).symm
  rename_i hp₂
  obtain ⟨hl₂, o₂, ht₂, -⟩ := T.edge ht₁ (by simp) hm₂ (present_iff.mpr hp₂)
  rw [lookup_down hp₂ hl₂]
  split
  · rename_i hp
    exact (translate_absent hp).symm
  rename_i hp₃
  obtain ⟨hl₃, -⟩ := T.edge ht₂ (by simp) hm₃ (present_iff.mpr hp₃)
  rw [lookup_down hp₃ hl₃]
  split
  · rename_i hlarge
    exact absurd (large_iff.mp hl₃) hlarge
  · rfl

end Typed

/-- The leaf that `vmm_map_page` stores translates to its frame, if the flags leave it alone. -/
theorem translate_leaf {phys flags virt : Word}
    (hf : (flags &&& frameMask) ||| (phys &&& frameMask) = phys &&& frameMask) :
    translate ((phys &&& frameMask) ||| flags ||| pagePresent) virt =
      (phys &&& frameMask) ||| (virt &&& 0xFFF) := by
  rw [translate, if_neg (present_or (by decide)), frame_leaf (by decide) hf]

/-! ### The calls as operations -/

/-- The machine with `kernel_pd` and the spaces made. -/
abbrev System := Spaces ℕ Word ℕ Bitmap

/-- A call that returns. -/
def step (s : System) : VmmCall 64 → Option System
  | .create => do
      let (pd, h) ← vmmCreateAddressSpace s.heap s.base
      some { s with heap := h, made := pd :: s.made }
  | .map pd virt phys flags =>
      if pd ∈ s.roots then do
        let h ← vmmMapPage s.heap pd virt phys flags
        some { s with heap := h }
      else none
  | .unmap pd virt =>
      if pd ∈ s.roots then do
        let h ← vmmUnmapPage s.heap pd virt
        some { s with heap := h }
      else none

def toOp : VmmCall 64 → SpaceOp ℕ (Fin 512) Word
  | .create => .create
  | .map pd virt phys flags =>
      .map pd (path virt) (ptIndex virt) ((phys &&& frameMask) ||| flags ||| pagePresent)
  | .unmap pd virt => .unmap pd (path virt) (ptIndex virt)

/-- **The code refines the library's system.** -/
theorem step_eq (s : System) (call : VmmCall 64) :
    step s call = s.step fmt pagePool (toOp call) := by
  cases call with
  | create =>
      rw [step, vmmCreateAddressSpace_eq, toOp, Spaces.step, Option.map_eq_bind]
      rfl
  | map pd virt phys flags =>
      rw [step, vmmMapPage_eq, toOp, Spaces.step, Option.map_eq_bind]
      rfl
  | unmap pd virt =>
      rw [step, vmmUnmapPage_eq, toOp, Spaces.step, Option.map_eq_bind]
      rfl

/-- The calls' steps as a relation. -/
def Step (s : System) (call : VmmCall 64) (s' : System) : Prop := step s call = some s'

/-- **The invariant of a run.** -/
theorem inv_run {Foreign : List (Fin 512) → Prop} {s s' : System} {calls : List (VmmCall 64)}
    (hr : Run Step s calls s') (hf : ∀ call ∈ calls, (toOp call).Fits 4 Foreign)
    {c : ℕ → Option (List (Fin 512) × ℕ)} (hI : Inv fmt pagePool 4 Foreign c s) :
    ∃ c', Inv fmt pagePool 4 Foreign c' s' ∧ Kept fmt 4 Foreign c s c' s' := by
  induction hr generalizing c with
  | refl => exact ⟨c, hI, .refl _ _⟩
  | more h _ ih =>
      rw [Step, step_eq] at h
      obtain ⟨c₁, hI₁, K₁⟩ := hI.step (hf _ List.mem_cons_self) h
      obtain ⟨c', hI', K'⟩ := ih (fun call hc => hf call (List.mem_cons_of_mem _ hc)) hI₁
      exact ⟨c', hI', K₁.trans K'⟩

/-- A call to make a space returns while a page is free. -/
theorem step_create_some {s : System} {n : ℕ} (hB : pagePool.Has (n + 1) s.heap.pool) :
    ∃ a s', Step s .create s' ∧ s'.made = a :: s.made ∧ pagePool.Has n s'.heap.pool := by
  obtain ⟨a, pool, htake, hB'⟩ := hB
  refine ⟨a, ⟨⟨fmt.copySlots (fmt.clear s.heap.mem a) s.base a, pool⟩, s.base, a :: s.made⟩, ?_,
    rfl, hB'⟩
  simp only [Step, step_eq, toOp, Spaces.step, Format.copyRoot, htake, Option.map_some]

/-- A call to map returns while three pages are free. -/
theorem step_map_some {s : System} {pd : ℕ} (hpd : pd ∈ s.roots)
    (hB : pagePool.Has 3 s.heap.pool) (virt phys flags : Word) :
    ∃ s', Step s (.map pd virt phys flags) s' := by
  have hB : pagePool.Has (path virt).length s.heap.pool := hB
  obtain ⟨q, h', hd⟩ := Format.descend_some (F := fmt) hB pd
  simp only [Step, step_eq, toOp, Spaces.step, if_pos hpd, Format.mapLeaf, hd]
  exact ⟨_, rfl⟩

end ZeptoOS.X64
