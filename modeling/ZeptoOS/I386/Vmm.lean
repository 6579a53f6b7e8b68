import ZeptoOS.Mm.Vmm

/-!
# I386 — Vmm

`kernel/i386/vmm.c`: two levels of tables.  The functions are written as the source has them;
`none` is `pmm_alloc`'s panic.  `vmm_map_page` does not test the table it got for `NULL`; on typed
tables there is nothing to test, and it is the library's leaf store (`vmmMapPage_eq`).

Loading `cr3` and `cr0` has no part in what the tables say and is left out.
-/

namespace ZeptoOS.I386
open Lib

/-- An entry, and `uint32_t`. -/
abbrev Word := BitVec 32

/-- Memory, and `pmm_bitmap`. -/
abbrev Machine := Heap ℕ Word Bitmap

/-- `0xFFFFF000` -/
def frameMask : Word := 0xFFFFF000

/-- `virt >> 22` -/
def pdIdx (virt : Word) : Fin 1024 := Fin.ofNat 1024 (virt >>> 22).toNat

/-- `(virt >> 12) & 0x3FF` -/
def ptIdx (virt : Word) : Fin 1024 := Fin.ofNat 1024 ((virt >>> 12) &&& 0x3FF).toNat

/-- `&table[index]` -/
def slot (table : ℕ) (index : Fin 1024) : ℕ := table + 4 * index

/-- `for (int i = 0; i < 1024; i++) table[i] = 0;` -/
def clearTable (mem : Store ℕ Word) (table : ℕ) : Store ℕ Word :=
  mem.setAll (slot table) (fun _ => 0) (List.finRange 1024)

/-- `get_page_table` -/
def getPageTable (h : Machine) (pd : ℕ) (virt : Word) (create : Bool) : Option (ℕ × Machine) :=
  if h.mem.cell (slot pd (pdIdx virt)) &&& pagePresent = 0 then
    if !create then some (0, h)
    else do
      let (ptPhys, pool) ← pmmAlloc h.pool
      let mem := clearTable h.mem ptPhys
      let mem := mem.set (slot pd (pdIdx virt))
        (BitVec.ofNat 32 ptPhys ||| pagePresent ||| pageWrite ||| pageUser)
      some ((mem.cell (slot pd (pdIdx virt)) &&& frameMask).toNat, ⟨mem, pool⟩)
  else some ((h.mem.cell (slot pd (pdIdx virt)) &&& frameMask).toNat, h)

/-- `vmm_create_address_space` -/
def vmmCreateAddressSpace (h : Machine) (kernelPd : ℕ) : Option (ℕ × Machine) := do
  let (pd, pool) ← pmmAlloc h.pool
  let mem := clearTable h.mem pd
  let mem := (List.finRange 1024).foldl
    (fun mem i => mem.set (slot pd i) (mem.cell (slot kernelPd i))) mem
  some (pd, ⟨mem, pool⟩)

/-- `vmm_map_page` -/
def vmmMapPage (h : Machine) (pd : ℕ) (virt phys flags : Word) : Option Machine := do
  let (pt, h) ← getPageTable h pd virt true
  let entry := (phys &&& frameMask) ||| flags ||| pagePresent
  some ⟨h.mem.set (slot pt (ptIdx virt)) entry, h.pool⟩

/-- `vmm_unmap_page` -/
def vmmUnmapPage (h : Machine) (pd : ℕ) (virt : Word) : Option Machine := do
  let (pt, h) ← getPageTable h pd virt false
  if pt = 0 then some h
  else some ⟨h.mem.set (slot pt (ptIdx virt)) 0, h.pool⟩

/-- `vmm_get_phys_addr` -/
def vmmGetPhysAddr (h : Machine) (pd : ℕ) (virt : Word) : Option Word := do
  let (pt, h) ← getPageTable h pd virt false
  if pt = 0 then some 0
  else some (h.mem.cell (slot pt (ptIdx virt)) &&& frameMask)

/-- `init_paging`: the new `kernel_pd`, and the machine with the first 16 MiB mapped. -/
def initPaging (h : Machine) : Option (ℕ × Machine) := do
  let (kernelPd, pool) ← pmmAlloc h.pool
  let h : Machine := ⟨clearTable h.mem kernelPd, pool⟩
  let h ← (List.range 0x1000).foldlM (fun h i =>
    let addr := BitVec.ofNat 32 (0x1000 * i)
    vmmMapPage h kernelPd addr addr (pagePresent ||| pageWrite ||| pageUser)) h
  some (kernelPd, h)

/-! ### As radix tables -/

theorem frameMask_bits : FrameMask frameMask 32 where
  top_le := by decide
  le_top := by decide
  bits i hi := by
    have h : ∀ i : Fin 32, frameMask.getLsbD i = decide (12 ≤ i.val ∧ i.val < 32) := by decide
    exact h ⟨i, hi⟩

theorem shape : PageShape 1024 4 32 frameMask (fun _ => false) where
  page := rfl
  frames := frameMask_bits
  flags := by decide
  small _ _ := rfl

/-- The tables of this target; it has no large entries. -/
def fmt : Format ℕ Word ℕ (Fin 1024) := pageFormat 1024 4 32 frameMask (fun _ => false) shape

/-- The indices of the tables that a walk for `virt` goes through. -/
def path (virt : Word) : List (Fin 1024) := [pdIdx virt]

/-- Every entry of a page directory is managed. -/
def Large (_ : List (Fin 1024)) : Prop := False

theorem pageAddr_of_free {b : Bitmap} (hb : LowReserved b) {p : ℕ} (hp : PageFree b p) :
    PageAddr 32 p := by
  obtain ⟨hlo, hhi⟩ := hb.page hp
  exact ⟨hp.1, by omega, by omega⟩

theorem slot_eq (p : ℕ) (i : Fin 1024) : slot p i = fmt.slot p i := rfl

theorem link_eq (p : ℕ) :
    (BitVec.ofNat 32 p ||| pagePresent ||| pageWrite ||| pageUser : Word) = fmt.link p := rfl

theorem target_eq (e : Word) : (e &&& frameMask).toNat = fmt.target e := rfl

theorem indices_eq : List.finRange 1024 = fmt.indices := by
  rw [fmt, pageFormat]

theorem clearTable_eq (m : Store ℕ Word) (p : ℕ) : clearTable m p = fmt.clear m p := by
  rw [clearTable, Format.clear, indices_eq]
  rfl

theorem present_iff {e : Word} : fmt.present e = true ↔ ¬ e &&& pagePresent = 0 :=
  bne_iff_ne

theorem absent_iff {e : Word} : fmt.present e = false ↔ e &&& pagePresent = 0 :=
  bne_eq_false_iff_eq

theorem descend_one (h : Machine) (pd : ℕ) (i : Fin 1024) (create : Bool) :
    fmt.descend pagePool h pd [i] create = fmt.next pagePool h pd i create := by
  rw [Format.descend]
  cases fmt.next pagePool h pd i create with
  | none => rfl
  | some x => exact ite_self _

/-- `get_page_table` walks down one link. -/
theorem getPageTable_eq (h : Machine) (pd : ℕ) (virt : Word) (create : Bool) :
    getPageTable h pd virt create = fmt.descend pagePool h pd (path virt) create := by
  rw [path, descend_one]
  by_cases hp : h.mem.cell (slot pd (pdIdx virt)) &&& pagePresent = 0
  · have hf : ¬ fmt.present (fmt.entry h.mem pd (pdIdx virt)) = true :=
      fun h => present_iff.mp h hp
    rw [getPageTable, Format.next, if_pos hp, if_neg hf]
    cases create with
    | false => rfl
    | true =>
        simp only [Bool.not_true, Bool.false_eq_true, if_false, if_true, pagePool, clearTable_eq,
          slot_eq, link_eq, target_eq, Option.map_eq_bind]
        rfl
  · have hf : fmt.present (fmt.entry h.mem pd (pdIdx virt)) = true := present_iff.mpr hp
    rw [getPageTable, Format.next, if_neg hp, if_pos hf]
    rfl

theorem vmmCreateAddressSpace_eq (h : Machine) (kernelPd : ℕ) :
    vmmCreateAddressSpace h kernelPd = fmt.copyRoot pagePool h kernelPd := by
  simp only [vmmCreateAddressSpace, Format.copyRoot, Option.map_eq_bind, Format.copySlots,
    clearTable_eq, slot_eq, indices_eq]
  rfl

theorem vmmUnmapPage_eq (h : Machine) (pd : ℕ) (virt : Word) :
    vmmUnmapPage h pd virt = fmt.unmapLeaf pagePool h pd (path virt) (ptIdx virt) := by
  rw [vmmUnmapPage, getPageTable_eq, Format.unmapLeaf, Option.map_eq_bind]
  exact congrArg _ (funext fun x => (apply_ite some ..).symm)

/-! ### Addresses -/

theorem pdIdx_toNat {virt : Word} : (pdIdx virt : ℕ) = virt.toNat / 2 ^ 22 := by
  have := virt.isLt
  rw [pdIdx, Fin.val_ofNat, BitVec.toNat_ushiftRight, Nat.shiftRight_eq_div_pow]
  omega

theorem ptIdx_toNat {virt : Word} : (ptIdx virt : ℕ) = virt.toNat / 2 ^ 12 % 1024 := by
  rw [ptIdx, Fin.val_ofNat, BitVec.toNat_and, BitVec.toNat_ushiftRight,
    Nat.shiftRight_eq_div_pow]
  have h : virt.toNat / 2 ^ 12 &&& (0x3FF : Word).toNat = virt.toNat / 2 ^ 12 % 2 ^ 10 :=
    Nat.and_two_pow_sub_one_eq_mod _ 10
  rw [h]
  omega

theorem samePage_iff {v v' : Word} :
    SamePage v v' ↔ (path v, ptIdx v) = (path v', ptIdx v') := by
  simp only [SamePage, path, Prod.mk.injEq, List.cons.injEq, and_true, Fin.ext_iff, pdIdx_toNat,
    ptIdx_toNat]
  omega

theorem managed_path (virt : Word) {base : ℕ} :
    (⟨2, base, Large⟩ : Plan (Fin 1024) ℕ).Managed [] (path virt) := ⟨id, trivial⟩

section Typed

variable {base : ℕ} {h : Machine} {c : ℕ → Option (List (Fin 1024) × ℕ)} {pd o : ℕ}

/-- A present entry of a page directory leads to a table of its index. -/
theorem table_of_present (T : fmt.Typed pagePool ⟨2, base, Large⟩ c h) (hpd : c pd = some ([], o))
    {k : Fin 1024} (hpr : fmt.present (fmt.entry h.mem pd k)) :
    ∃ o', c (fmt.target (fmt.entry h.mem pd k)) = some ([k], o') := by
  obtain ⟨-, o', ht, -⟩ := T.edge (i := k) hpd (by simp) id hpr
  exact ⟨o', ht⟩

/-- On typed tables the table to store into is not `NULL`. -/
theorem vmmMapPage_eq (T : fmt.Typed pagePool ⟨2, base, Large⟩ c h) (hpd : c pd = some ([], o))
    (virt phys flags : Word) :
    vmmMapPage h pd virt phys flags =
      fmt.mapLeaf pagePool h pd (path virt) (ptIdx virt)
        ((phys &&& frameMask) ||| flags ||| pagePresent) := by
  rw [vmmMapPage, getPageTable_eq, Format.mapLeaf]
  cases hd : fmt.descend pagePool h pd (path virt) true with
  | none => rfl
  | some x =>
      obtain ⟨c', o', D⟩ := T.descend hpd (managed_path virt) (by simp [path]) hd
      rw [Option.map_some, if_neg (fmt.ne_null (D.typed.valid D.table))]
      rfl

/-- `vmm_get_phys_addr` returns the frame in the leaf. -/
theorem vmmGetPhysAddr_eq (T : fmt.Typed pagePool ⟨2, base, Large⟩ c h)
    (hpd : c pd = some ([], o)) (virt : Word) :
    vmmGetPhysAddr h pd virt =
      some (fmt.lookup h.mem pd (path virt) (ptIdx virt) &&& frameMask) := by
  rw [vmmGetPhysAddr, getPageTable_eq,
    T.descend_false hpd (managed_path virt) (by simp [path]), Format.lookup]
  cases hw : fmt.walk h.mem pd (path virt) with
  | none => exact congrArg some (by decide : (0 : Word) = 0 &&& frameMask)
  | some q =>
      obtain ⟨o', hq, -⟩ := T.walk hpd (managed_path virt) (by simp [path]) hw
      exact if_neg (fmt.ne_null (T.valid hq))

end Typed

/-! ### The calls as operations -/

/-- The machine with `kernel_pd` and the spaces made. -/
abbrev System := Spaces ℕ Word ℕ Bitmap

/-- A call that returns. -/
def step (s : System) : VmmCall 32 → Option System
  | .create => do
      let (pd, h) ← vmmCreateAddressSpace s.heap s.base
      some { s with heap := h, made := pd :: s.made }
  | .map pd virt phys flags =>
      if pd ∈ s.roots then do
        let h ← vmmMapPage s.heap pd virt phys flags
        some { s with heap := h }
      else none
  | .unmap pd virt =>
      if pd ∈ s.roots then do
        let h ← vmmUnmapPage s.heap pd virt
        some { s with heap := h }
      else none

/-- The calls' steps as a relation. -/
def Step (s : System) (call : VmmCall 32) (s' : System) : Prop := step s call = some s'

def toOp : VmmCall 32 → SpaceOp ℕ (Fin 1024) Word
  | .create => .create
  | .map pd virt phys flags =>
      .map pd (path virt) (ptIdx virt) ((phys &&& frameMask) ||| flags ||| pagePresent)
  | .unmap pd virt => .unmap pd (path virt) (ptIdx virt)

theorem toOp_fits (call : VmmCall 32) : (toOp call).Fits 2 Large := by
  cases call with
  | create => trivial
  | map pd virt phys flags => exact ⟨managed_path virt, rfl⟩
  | unmap pd virt => exact ⟨managed_path virt, rfl⟩

/-- **The code refines the library's system**, on typed tables. -/
theorem step_eq {s : System} {c : ℕ → Option (List (Fin 1024) × ℕ)}
    (hI : Inv fmt pagePool 2 Large c s) (call : VmmCall 32) :
    step s call = s.step fmt pagePool (toOp call) := by
  cases call with
  | create =>
      rw [step, vmmCreateAddressSpace_eq, toOp, Spaces.step, Option.map_eq_bind]
      rfl
  | map pd virt phys flags =>
      rw [step, toOp, Spaces.step]
      split
      · rename_i hpd
        rw [vmmMapPage_eq hI.typed (hI.root pd hpd), Option.map_eq_bind]
        rfl
      · rfl
  | unmap pd virt =>
      rw [step, vmmUnmapPage_eq, toOp, Spaces.step, Option.map_eq_bind]
      rfl

/-- **The invariant of a run.** -/
theorem inv_run {s s' : System} {calls : List (VmmCall 32)} (hr : Run Step s calls s')
    {c : ℕ → Option (List (Fin 1024) × ℕ)} (hI : Inv fmt pagePool 2 Large c s) :
    ∃ c', Inv fmt pagePool 2 Large c' s' ∧ Kept fmt 2 Large c s c' s' := by
  induction hr generalizing c with
  | refl => exact ⟨c, hI, .refl _ _⟩
  | more h _ ih =>
      rw [Step, step_eq hI] at h
      obtain ⟨c₁, hI₁, K₁⟩ := hI.step (toOp_fits _) h
      obtain ⟨c', hI', K'⟩ := ih hI₁
      exact ⟨c', hI', K₁.trans K'⟩

end ZeptoOS.I386
