import ZeptoOS.Boot.Kmain
import ZeptoOS.I386.InitPaging
import ZeptoOS.Mm.MemoryMap

/-!
# Boot — Regions

Who owns the memory that `kmain` loads `init` into.  Nobody marks it: the bitmap has the kernel, the
modules and, on i386, the tables that `init_paging` made; the copy at `0x400000` and the segments of
`init` go where their addresses say.

`boot_regions_disjoint` says on which inputs they collide with nothing, neither during the boot nor
with a page that the allocator hands out afterwards.
-/

namespace ZeptoOS
open Lib Fs

/-! ### Owners -/

/-- `a` lies in the page at `p`. -/
def InPage (p a : ℕ) : Prop := p ≤ a ∧ a < p + 4096

/-- `a` lies in the kernel image. -/
def InKernel (k : KernelImage) (a : ℕ) : Prop := 0x100000 ≤ a ∧ a < k.kernelEnd

/-- `a` lies in the first module. -/
def InInitrd (t : Target) (mem : Bytes) (mb : MultibootInfo) (a : ℕ) : Prop :=
  modStart t mem mb 0 ≤ a ∧ a < modEnd t mem mb 0

/-- The pages that `init_paging` was handed. -/
def InitLoad.out (L : InitLoad) : Set ℕ := {p | PageFree L.free p ∧ ¬ PageFree L.pool p}

/-- The load of `init` collides with nothing. -/
structure RegionsDisjoint (t : Target) (k : KernelImage) (mem : Bytes) (mb : MultibootInfo)
    (L : InitLoad) : Prop where
  kernel : ∀ a, a ∈ L.staged.written ∨ a ∈ L.loaded.written → ¬ InKernel k a
  initrd : ∀ a, a ∈ L.staged.written ∨ a ∈ L.loaded.written → ¬ InInitrd t mem mb a
  handedOut : ∀ a, a ∈ L.staged.written ∨ a ∈ L.loaded.written → ∀ p ∈ L.out, ¬ InPage p a
  later : ∀ es s, Run PmmStep ⟨L.pool, L.out⟩ es s → (∀ e ∈ es, ∀ p, e ≠ .free p) →
    ∀ e ∈ es, ∀ p ∈ e.pages, ∀ a ∈ L.loaded.written, ¬ InPage p a

/-! ### The condition -/

instance (t : Target) (mem : Bytes) (k : KernelImage) (mb : MultibootInfo) (es : List MmapEntry) :
    DecidablePred (Offered t mem k mb es) := fun i =>
  have (a : ℕ) : Decidable (EntryFrees t mem a i) := inferInstanceAs (Decidable (_ ∧ _ ∧ _))
  have : Decidable (Reserved t mem k mb i) :=
    inferInstanceAs (Decidable (_ ∨ (_ ∧ _) ∨ (_ ∧ ∃ m < _, _ ∧ _)))
  inferInstanceAs (Decidable (_ ∧ (∃ x ∈ _, _) ∧ ¬ _))

/-- The pages that `init_paging` asks for. -/
def Target.pagingPages : Target → ℕ
  | i386 => 5
  | x86_64 => 0

/-- `a` is a byte of a segment, as the program headers of the copy say. -/
def InitLoad.Segments (t : Target) (L : InitLoad) (a : ℕ) : Prop :=
  ∃ i < (phnum t L.staged.cell elfBuffer).toNat, InSegment t L.staged.cell elfBuffer i a

/-- A segment over `e_phnum` or the program headers of the copy is loaded onto itself there. -/
def InitLoad.KeepsHeaders (t : Target) (L : InitLoad) : Prop :=
  Leaves t L.staged.cell elfBuffer (InHeaders t L.staged.cell elfBuffer)

instance (t : Target) (L : InitLoad) : Decidable (L.KeepsHeaders t) :=
  inferInstanceAs (Decidable (Leaves _ _ _ _))

/-- The copy of `init` avoids the kernel, the module and the pages `init_paging` gets, the lowest
that the memory map offers; its segments leave its headers alone, and avoid the kernel, the module
and every page the map offers. -/
structure RegionsClear (t : Target) (k : KernelImage) (mem : Bytes) (mb : MultibootInfo)
    (es : List MmapEntry) (L : InitLoad) : Prop where
  staged : ∀ a, L.Staged t a → ¬ InKernel k a ∧ ¬ InInitrd t mem mb a ∧
    ∀ i, Offered t mem k mb es i → Nat.count (Offered t mem k mb es) i < t.pagingPages →
      ¬ InPage (i * 4096) a
  headers : L.KeepsHeaders t
  segments : ∀ a, L.Segments t a → ¬ InKernel k a ∧ ¬ InInitrd t mem mb a ∧
    ∀ i, Offered t mem k mb es i → ¬ InPage (i * 4096) a

/-! ### The pages of a boot -/

section Boots

variable {t : Target} {k : KernelImage} {mem : Bytes} {mb : MultibootInfo} {fuel : ℕ}
  {L : InitLoad}

/-- `init_paging` is handed the lowest pages that `pmm_init` left. -/
theorem InitLoad.Boots.firstTaken (hL : L.Boots t k mem mb fuel) :
    FirstTaken t.pagingPages L.free L.pool := by
  obtain ⟨mem', hpaging⟩ := hL.paging
  cases t with
  | i386 =>
      obtain ⟨⟨pd, h⟩, hinit, heq⟩ := Option.map_eq_some_iff.mp hpaging
      have hpool : h.pool = L.pool := congrArg Prod.snd heq
      rw [← hpool]
      exact I386.initPaging_firstTaken (pmmInit_low hL.pmm) hinit
  | x86_64 =>
      have hpool : L.free = L.pool := congrArg Prod.snd (Option.some.inj hpaging)
      rw [← hpool]
      exact .none _

/-- The ledger of the allocator when `kmain` goes on. -/
theorem InitLoad.Boots.ledger (hL : L.Boots t k mem mb fuel) :
    Ledger L.free ⟨L.pool, L.out⟩ where
  bits i hi := by
    have hpage : i * 4096 % 4096 = 0 ∧ i * 4096 / 4096 = i := by omega
    simp only [InitLoad.out, PageFree, Set.mem_ofPred_eq, hpage, hi, true_and]
    have := (hL.firstTaken i).mp
    tauto
  out p hp := hp.1

/-- The pages handed out are those of the memory map that come first. -/
theorem InitLoad.Boots.mem_out (hL : L.Boots t k mem mb fuel) {es : List MmapEntry}
    (hmap : MapAnnounced mem mb es) {p : ℕ} :
    p ∈ L.out ↔ ∃ i, p = i * 4096 ∧ Offered t mem k mb es i ∧
      Nat.count (Offered t mem k mb es) i < t.pagingPages := by
  have hfree : ∀ i < pmmMaxPages, bitTest L.free i = false ↔ Offered t mem k mb es i :=
    fun i hi => pmmInit_offered hmap hL.pmm hi
  have hcount : ∀ i < pmmMaxPages, Nat.count (fun j => bitTest L.free j = false) i =
      Nat.count (Offered t mem k mb es) i := fun i hi =>
    Nat.le_antisymm (Nat.count_mono_left fun j hj => (hfree j (by omega)).mp)
      (Nat.count_mono_left fun j hj => (hfree j (by omega)).mpr)
  constructor
  · rintro ⟨⟨hal, hi, hbit⟩, hpool⟩
    refine ⟨p / 4096, by omega, (hfree _ hi).mp hbit, ?_⟩
    by_contra hle
    rw [← hcount _ hi] at hle
    exact hpool ⟨hal, hi, (hL.firstTaken _).mpr ⟨hbit, by omega⟩⟩
  · rintro ⟨i, rfl, hoff, hlt⟩
    have hi := hoff.1
    have hpage : i * 4096 % 4096 = 0 ∧ i * 4096 / 4096 = i := by omega
    simp only [InitLoad.out, PageFree, Set.mem_ofPred_eq, hpage, hi, true_and]
    refine ⟨(hfree i hi).mpr hoff, fun hbit => ?_⟩
    have hle := ((hL.firstTaken i).mp hbit).2
    rw [hcount i hi] at hle
    omega

/-- `elf_load`, which reads the copy and not the archive, stores to the segments. -/
theorem InitLoad.Boots.segments (hL : L.Boots t k mem mb fuel) (hkeeps : L.KeepsHeaders t) (a : ℕ) :
    a ∈ L.loaded.written ↔ L.Segments t a := by
  have hstored := (elfLoad_stored (m := ⟨L.staged.cell, []⟩) hkeeps hL.accepted).written a
  rw [hL.loaded] at hstored
  exact hstored.trans (or_iff_right List.not_mem_nil)

/-- A page that the map offers is handed out already, or some calls of `pmm_alloc` return it. -/
theorem InitLoad.Boots.handed_or_later (hL : L.Boots t k mem mb fuel) {es : List MmapEntry}
    (hmap : MapAnnounced mem mb es) {i : ℕ} (hi : Offered t mem k mb es i) :
    i * 4096 ∈ L.out ∨ ∃ calls s, Run PmmStep ⟨L.pool, L.out⟩ calls s ∧
      (∀ e ∈ calls, ∀ p, e ≠ .free p) ∧ .alloc (i * 4096) ∈ calls := by
  by_cases hbit : bitTest L.pool i = false
  · obtain ⟨calls, s, hrun, halloc, hmem⟩ := pmmAlloc_reaches hi.1 i
      (s := ⟨L.pool, L.out⟩) hbit le_rfl fun j hj => absurd hj (by omega)
    refine .inr ⟨calls, s, hrun, fun e he p => ?_, hmem⟩
    obtain ⟨q, rfl⟩ := halloc e he
    exact nofun
  · have hpage : i * 4096 / 4096 = i := by omega
    refine .inl ⟨⟨by omega, by rw [hpage]; exact hi.1, ?_⟩, fun h => hbit ?_⟩
    · rw [hpage]
      exact (pmmInit_offered hmap hL.pmm hi.1).mpr hi
    · have := h.2.2
      rwa [hpage] at this

end Boots

/-- An `init` that leaves its headers alone collides with nothing exactly if the regions are
clear. -/
theorem regionsDisjoint_iff {t : Target} {k : KernelImage} {mem : Bytes} {mb : MultibootInfo}
    {es : List MmapEntry} {fuel : ℕ} {L : InitLoad} (hmap : MapAnnounced mem mb es)
    (hL : L.Boots t k mem mb fuel) (hkeeps : L.KeepsHeaders t) :
    RegionsDisjoint t k mem mb L ↔ RegionsClear t k mem mb es L := by
  have hsegments := hL.segments hkeeps
  constructor
  · intro hd
    refine ⟨fun a ha => ?_, hkeeps, fun a ha => ?_⟩
    · have hw : a ∈ L.staged.written ∨ a ∈ L.loaded.written := .inl ((hL.staged a).mpr ha)
      refine ⟨hd.kernel a hw, hd.initrd a hw, fun i hi hlt => ?_⟩
      exact hd.handedOut a hw _ ((hL.mem_out hmap).mpr ⟨i, rfl, hi, hlt⟩)
    · have hloaded := (hsegments a).mpr ha
      refine ⟨hd.kernel a (.inr hloaded), hd.initrd a (.inr hloaded), fun i hi => ?_⟩
      -- a page of the map is out already, or calls of `pmm_alloc` come to it
      rcases hL.handed_or_later hmap hi with hout | ⟨calls, s, hrun, hcalls, hmem⟩
      · exact hd.handedOut a (.inr hloaded) _ hout
      · exact hd.later calls s hrun hcalls _ hmem _ rfl a hloaded
  · intro hc
    have hsegments : ∀ a ∈ L.loaded.written, _ := fun a ha => hc.segments a ((hsegments a).mp ha)
    have hstaged : ∀ a ∈ L.staged.written, _ := fun a ha => hc.staged a ((hL.staged a).mp ha)
    refine ⟨?_, ?_, ?_, fun calls s hrun _ e he p hp a ha => ?_⟩
    · rintro a (ha | ha)
      · exact (hstaged a ha).1
      · exact (hsegments a ha).1
    · rintro a (ha | ha)
      · exact (hstaged a ha).2.1
      · exact (hsegments a ha).2.1
    · rintro a ha p hp
      obtain ⟨i, rfl, hi, hlt⟩ := (hL.mem_out hmap).mp hp
      rcases ha with ha | ha
      · exact (hstaged a ha).2.2 i hi hlt
      · exact (hsegments a ha).2.2 i hi
    · obtain ⟨hal, hi, hbit⟩ := hL.ledger.run_pages hrun e he p hp
      have hoff := (pmmInit_offered hmap hL.pmm hi).mp hbit
      have := (hsegments a ha).2.2 _ hoff
      rwa [show p / 4096 * 4096 = p by omega] at this

/-- Memory with one usable entry in the map, 4 GiB from 0 on with the given attributes, and one
module at 2 MiB: an archive of `init`, an image of one segment of one byte at 8 MiB. -/
def bootMemory (attributes : Byte) : Bytes := fun a =>
  ([(0x9000, 24), (0x9010, 1), (0x9014, 1), (0x9018, attributes),
    (0xA002, 0x20), (0xA005, 0x04), (0xA006, 0x20),
    (0x200000, 0x69), (0x200001, 0x6E), (0x200002, 0x69), (0x200003, 0x74),
    (0x20007C, 0x31), (0x20007D, 0x37), (0x20007E, 0x30),
    (0x200200, 0x7F), (0x200201, 0x45), (0x200202, 0x4C), (0x200203, 0x46), (0x200204, 2),
    (0x200212, 0x3E), (0x20021A, 0x80), (0x200220, 64), (0x200238, 1),
    (0x200240, 1), (0x200252, 0x80), (0x200260, 1), (0x200268, 1)].lookup a).getD 0

def bootInfo : MultibootInfo := ⟨0x48, 1, 0xA000, 28, 0x9000⟩

/-- The stores of the copy, those of `elf_load`, and whether it leaves the headers alone. -/
def BootResult.stores (t : Target) : BootResult → List ℕ × List ℕ × Bool
  | .loaded L => (L.staged.written, L.loaded.written, decide (L.KeepsHeaders t))
  | _ => ([], [], false)

/-- The entry of the map. -/
def bootMap : List MmapEntry := [⟨24, 0, 2 ^ 32, 1, by decide⟩]

theorem bootMemory_map (attributes : Byte) :
    MapAnnounced (bootMemory attributes) bootInfo bootMap := by
  have hentry : ∀ attributes : Byte, leBytes (bootMemory attributes) 0x9000 4 = 24 ∧
      leBytes (bootMemory attributes) 0x9004 8 = 0 ∧
      leBytes (bootMemory attributes) 0x900C 8 = 2 ^ 32 ∧
      leBytes (bootMemory attributes) 0x9014 4 = 1 := by decide +kernel
  obtain ⟨hsize, hbase, hlength, htype⟩ := hentry attributes
  refine ⟨rfl, fun x hx => ?_, rfl, by decide⟩
  obtain rfl := List.mem_singleton.mp hx
  exact ⟨hsize, hbase, hlength, htype⟩

theorem bootMemory_loads (attributes : Byte)
    (h : (kmain .x86_64 smallKernel (bootMemory attributes) 0x2BADB002 bootInfo 3).map
      (fun r => ((r.stores .x86_64).1.all fun a => decide (0x400000 ≤ a ∧ a < 0x400078),
        (r.stores .x86_64).2)) = some (true, [0x800000], true)) :
    ∃ L, kmain .x86_64 smallKernel (bootMemory attributes) 0x2BADB002 bootInfo 3 =
        some (.loaded L) ∧
      (∀ a ∈ L.staged.written, 0x400000 ≤ a ∧ a < 0x400078) ∧ L.loaded.written = [0x800000] ∧
      L.KeepsHeaders .x86_64 := by
  obtain ⟨r, hr, hstores⟩ := Option.map_eq_some_iff.mp h
  obtain ⟨hcopy, hrest⟩ := Prod.mk.inj hstores
  cases r with
  | loaded L =>
      obtain ⟨hload, hkeeps⟩ := Prod.mk.inj hrest
      exact ⟨L, hr, by simpa [BootResult.stores] using hcopy, hload, of_decide_eq_true hkeeps⟩
  | _ => cases hrest

end ZeptoOS
