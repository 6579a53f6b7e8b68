import ZeptoOS.X64.Boot

/-!
# X64 — HugePages

What a call does to the translation it is about, in a run from the boot tables.  The boot page
directory maps the first 1 GiB by 2 MiB entries, which `vmm_get_phys_addr` knows and `page_table`
does not: it takes the frame of such an entry for a page table, and the call stores into it
(`large_entry_taken_for_table`).  In a run whose calls all keep clear of these entries, and whose
flags leave the frame alone, every call does what it should (`calls_meet_contract`).
-/

namespace ZeptoOS.X64
open Lib

/-- The page at `p` is a paging structure: a root or a table that some root leads to. -/
def PagingPage (s : System) (p : ℕ) : Prop :=
  ∃ r ∈ s.roots, ∃ is : List (Fin 512), is.length < 4 ∧ fmt.walk s.heap.mem r is = some p

/-- What was stored from `s` to `s'` was stored into entries of paging structures. -/
def StoresInTables (s s' : System) : Prop :=
  ∃ new, s'.heap.mem.written = new ++ s.heap.mem.written ∧
    ∀ a ∈ new, ∃ p i, PagingPage s' p ∧ a = slot p i

/-- The contract of a call: its page translates as asked, and it stores into tables only. -/
def MeetsContract (s : System) (call : VmmCall 64) (s' : System) : Prop :=
  match call with
  | .create => True
  | .map pd virt phys _ =>
      vmmGetPhysAddr s'.heap.mem pd virt = (phys &&& frameMask) ||| (virt &&& 0xFFF) ∧
        StoresInTables s s'
  | .unmap pd virt => vmmGetPhysAddr s'.heap.mem pd virt = 0 ∧ StoresInTables s s'

/-- The flags of the call add no bit to the frame. -/
def FlagsOk : VmmCall 64 → Prop
  | .map _ _ phys flags => (flags &&& frameMask) ||| (phys &&& frameMask) = phys &&& frameMask
  | _ => True

section Step

variable {c c' : ℕ → Option (List (Fin 512) × ℕ)} {s : System}

/-- A leaf write stores into tables of the root it is under. -/
theorem storesInTables_write {h' : Machine} {pd : ℕ} {virt w : Word} (hpd : pd ∈ s.roots)
    (hw : fmt.Write pagePool ⟨4, s.base, Large⟩ c s.heap pd pd (path virt) (ptIndex virt) w c' h') :
    StoresInTables s { s with heap := h' } := by
  obtain ⟨new, e, hs⟩ := hw.stores
  refine ⟨new, e, fun a ha => ?_⟩
  obtain ⟨k, r, i, hr, rfl⟩ := hs a ha
  have hlen : ((path virt).take k).length < 4 := by
    rw [List.length_take, path]
    simp only [List.length_cons, List.length_nil]
    omega
  exact ⟨r, i, ⟨pd, hpd, _, hlen, hr⟩, rfl⟩

theorem getPhys_write {h' : Machine} {pd : ℕ} {virt w : Word} (hpd : c pd = some ([], pd))
    (hv : OutsideLarge virt)
    (hw : fmt.Write pagePool ⟨4, s.base, Large⟩ c s.heap pd pd (path virt) (ptIndex virt) w c' h') :
    vmmGetPhysAddr h'.mem pd virt = translate w virt := by
  rw [vmmGetPhysAddr_eq hw.typed (hw.grows hpd) hv.managed, hw.same]

/-- **One call** meets the contract. -/
theorem meetsContract_step {call : VmmCall 64} {s' : System}
    (hI : Inv fmt pagePool 4 Large c s) (hp : Plain call) (hf : FlagsOk call)
    (h : Step s call s') : MeetsContract s call s' := by
  rw [Step, step_eq] at h
  cases call with
  | create => trivial
  | map pd virt phys flags =>
      obtain ⟨c', h', hpd, rfl, hw⟩ := hI.map hp.fits h
      exact ⟨(getPhys_write (hI.root pd hpd) hp hw).trans (translate_leaf hf),
        storesInTables_write hpd hw⟩
  | unmap pd virt =>
      obtain ⟨h', hpd, rfl, hw⟩ := hI.unmap hp.fits h
      exact ⟨getPhys_write (hI.root pd hpd) hp hw, storesInTables_write hpd hw⟩

end Step

/-- **Every call in a run** from the boot tables whose addresses are outside the 2 MiB entries,
and whose flags leave the frames alone: the page mapped translates to its frame,
the page unmapped to 0, and only words of paging structures are stored to. -/
theorem calls_meet_contract {k : KernelImage} (t : BootTables k) (mem : Store ℕ Word)
    (b : Bitmap) (h0 : t.BssZero mem) (hb : KernelReserved k b) (calls : List (VmmCall 64))
    (call : VmmCall 64) (s s' : System) (hrun : Run Step (t.boot mem b) calls s)
    (hcall : Step s call s')
    (hplain : ∀ c ∈ calls ++ [call], Plain c ∧ FlagsOk c) : MeetsContract s call s' := by
  have hcalls : ∀ c ∈ calls, Plain c :=
    fun c hc => (hplain c (List.mem_append_left _ hc)).1
  obtain ⟨hp, hf⟩ := hplain call (List.mem_append_right _ List.mem_cons_self)
  obtain ⟨c, hI, -⟩ := inv_run hrun (fun c hc => (hcalls c hc).fits) (boot_inv h0 hb)
  exact meetsContract_step hI hp hf hcall

theorem calls_meet_contract_map :
    ∃ s', Step bootSystem (.map 0x101000 0x40000000 0x1000000 3) s' ∧
      vmmGetPhysAddr s'.heap.mem 0x101000 0x40000000 = 0x1000000 := by
  obtain ⟨s', h⟩ := step_map_some (s := bootSystem) bootSystem_root
    bootBitmap_has.pred.pred.pred.pred.pred 0x40000000 0x1000000 3
  refine ⟨s', h, ?_⟩
  have hmeets := calls_meet_contract bootTables ⟨fun _ => 0, []⟩ bootBitmap (fun _ => ⟨rfl, rfl⟩)
    bootBitmap_kernelReserved [] _ bootSystem s' (.refl _) h (fun c hc => by
      obtain rfl := List.mem_singleton.mp hc
      exact ⟨show OutsideLarge _ by decide, by unfold FlagsOk; decide⟩)
  exact hmeets.1

/-- **A 2 MiB entry taken for a table.**  Mapping 0x400000 to 0x1000000 in the boot tables stores
at 0x400000, the frame of the entry that covers the address, and leaves the address translating
to itself. -/
theorem large_entry_taken_for_table :
    ∃ s', Step bootSystem (.map 0x101000 0x400000 0x1000000 3) s' ∧
      vmmGetPhysAddr s'.heap.mem 0x101000 0x400000 = 0x400000 ∧
      s'.heap.mem.written = 0x400000 :: bootSystem.heap.mem.written ∧
      ¬ MeetsContract bootSystem (.map 0x101000 0x400000 0x1000000 3) s' := by
  have h : (step bootSystem (.map 0x101000 0x400000 0x1000000 3)).map (fun s' =>
      (vmmGetPhysAddr s'.heap.mem 0x101000 0x400000, s'.heap.mem.written)) =
      some (0x400000, 0x400000 :: bootSystem.heap.mem.written) := by decide +kernel
  obtain ⟨s', hs', e⟩ := Option.map_eq_some_iff.mp h
  obtain ⟨hphys, hwritten⟩ := Prod.mk.inj e
  exact ⟨s', hs', hphys, hwritten, fun hmeets => absurd (hphys.symm.trans hmeets.1) (by decide)⟩

end ZeptoOS.X64
