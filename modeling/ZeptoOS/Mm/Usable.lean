import ZeptoOS.Mm.MemoryMap

/-!
# Mm — Usable

Which pages `pmm_init` should free: those all of whose bytes the map calls usable, from 1 MiB on and
off the kernel and the modules (`UsablePage`).  The i386 build frees others too.  It rounds the
start of an entry down to a page, it does not look at the entries of other types, and it rounds the
end of a module up in 32 bits, where the end of one in the last page wraps.  `pmm_init_usable_iff`
says on which maps none of this happens.
-/

namespace ZeptoOS
open Lib

/-- Byte `x` lies in an entry of type 1. -/
def InUsable (es : List MmapEntry) (x : ℕ) : Prop :=
  ∃ e ∈ es, e.type = 1 ∧ e.base ≤ x ∧ x < e.base + e.length

/-- Byte `x` lies in an entry of another type. -/
def InOther (es : List MmapEntry) (x : ℕ) : Prop :=
  ∃ e ∈ es, e.type ≠ 1 ∧ e.base ≤ x ∧ x < e.base + e.length

section Usable

variable (mem : Bytes) (k : KernelImage) (mb : MultibootInfo) (es : List MmapEntry)

/-- Byte `x` lies in a boot module. -/
def InModule (x : ℕ) : Prop :=
  mb.flags.getLsbD 3 = true ∧ ∃ m < mb.modsCount.toNat,
    modStart .i386 mem mb m ≤ x ∧ x < modEnd .i386 mem mb m

/-- Page `i` may be handed out. -/
structure UsablePage (i : ℕ) : Prop where
  usable : ∀ x, 4096 * i ≤ x → x < 4096 * i + 4096 → InUsable es x
  noOther : ∀ x, 4096 * i ≤ x → x < 4096 * i + 4096 → ¬ InOther es x
  high : 0x100000 ≤ 4096 * i
  offKernel : ∀ x, 4096 * i ≤ x → x < 4096 * i + 4096 → ¬ (0x100000 ≤ x ∧ x < k.kernelEnd)
  offModules : ∀ x, 4096 * i ≤ x → x < 4096 * i + 4096 → ¬ InModule mem mb x

/-- Page `i` is one of the 16 MiB, is among the pages of an entry of type 1, and is not marked for
the first megabyte, the kernel or a module. -/
def Candidate (i : ℕ) : Prop :=
  i < pmmMaxPages ∧ (∃ e ∈ es, Usable e i) ∧ ¬ Reserved .i386 mem k mb i

/-- The map and the modules are such that rounding and order do not matter. -/
structure MapClean : Prop where
  /-- What comes before an entry on its first page is usable as well. -/
  heads : ∀ e ∈ es, Usable e (e.base / 4096) → Candidate mem k mb es (e.base / 4096) →
    ∀ x, 4096 * (e.base / 4096) ≤ x → x < e.base → InUsable es x
  /-- No entry of another type meets a page of a usable one. -/
  apart : ∀ e ∈ es, e.type ≠ 1 → 0 < e.length → ∀ i, Candidate mem k mb es i →
    e.base + e.length ≤ 4096 * i ∨ 4096 * i + 4096 ≤ e.base
  /-- No module that ends in the last page of 32 bits starts below a usable page. -/
  modules : mb.flags.getLsbD 3 = true → ∀ m < mb.modsCount.toNat,
    2 ^ 32 ≤ modEnd .i386 mem mb m + 4095 → ∀ i, Candidate mem k mb es i →
      4096 * i + 4096 ≤ modStart .i386 mem mb m

variable {mem k mb es}

theorem exists_placed {P : MmapEntry → Prop} : ∀ {es : List MmapEntry} {a : ℕ},
    (∃ x ∈ placed a es, P x.2) ↔ ∃ e ∈ es, P e
  | [], a => by simp only [placed, List.not_mem_nil, false_and, exists_false]
  | e :: es, a => by
      simp only [placed, List.mem_cons, exists_eq_or_imp]
      exact or_congr_right exists_placed

/-- **What the i386 build leaves free.** -/
theorem pmmInit_candidate (hmap : MapAnnounced mem mb es) {fuel : ℕ} {b : Bitmap}
    (h : pmmInit .i386 mem k mb fuel = some b) {i : ℕ} (hi : i < pmmMaxPages) :
    bitTest b i = false ↔ Candidate mem k mb es i := by
  have hfits := hmap.fits
  rw [pmmInit_offered hmap h hi, Offered, Candidate]
  refine and_congr_right fun _ => and_congr_left fun _ => ?_
  rw [← exists_placed (a := mb.mmapAddr.toNat)]
  refine exists_congr fun x => and_congr_right fun hx => entryFrees_i386 (hmap.map x hx) ?_
  have := mem_placed_le hx
  omega

/-- The numbers of an entry have 64 bits. -/
theorem MapAnnounced.entry_lt (hmap : MapAnnounced mem mb es) {e : MmapEntry} (he : e ∈ es) :
    e.base < 2 ^ 64 ∧ e.length < 2 ^ 64 := by
  obtain ⟨x, hx, rfl⟩ : ∃ x ∈ placed mb.mmapAddr.toNat es, x.2 = e :=
    (exists_placed (P := (· = e))).mpr ⟨e, he, rfl⟩
  have hentry := hmap.map x hx
  have hbase := leBytes_lt mem 8 (x.1 + 4)
  have hlength := leBytes_lt mem 8 (x.1 + 12)
  rw [hentry.base] at hbase
  rw [hentry.length] at hlength
  exact ⟨by omega, by omega⟩

/-- A page of a usable entry ends within it, and starts within it but for the first: an entry that
reaches past 64 bits has no pages. -/
theorem Usable.bounds {e : MmapEntry} {i : ℕ} (h : Usable e i) (hbase : e.base < 2 ^ 64)
    (hlength : e.length < 2 ^ 64) :
    4096 * i + 4096 ≤ e.base + e.length ∧ (e.base ≤ 4096 * i ∨ e.base / 4096 = i) := by
  obtain ⟨-, hlo, hhi⟩ := h
  omega

theorem Candidate.high {i : ℕ} (h : Candidate mem k mb es i) : 0x100 ≤ i :=
  Nat.not_lt.mp fun hi => h.2.2 (.inl hi)

theorem Candidate.kernel_le {i : ℕ} (h : Candidate mem k mb es i) : k.kernelEnd ≤ 4096 * i := by
  by_contra hlt
  exact h.2.2 (.inr (.inl ⟨h.high, lt_kernelEndPage.mpr (by omega)⟩))

/-- A module whose end does not wrap is off the pages left free. -/
theorem Candidate.off_module {i m : ℕ} (h : Candidate mem k mb es i)
    (hflag : mb.flags.getLsbD 3 = true) (hm : m < mb.modsCount.toNat)
    (hend : modEnd .i386 mem mb m + 4095 < 2 ^ 32) :
    4096 * i + 4096 ≤ modStart .i386 mem mb m ∨ modEnd .i386 mem mb m ≤ 4096 * i := by
  by_contra hmeets
  refine h.2.2 (.inr (.inr ⟨hflag, m, hm, by omega, ?_⟩))
  rw [Nat.mod_eq_of_lt hend]
  omega

theorem MapClean.usablePage (hclean : MapClean mem k mb es) (hmap : MapAnnounced mem mb es)
    {i : ℕ} (h : Candidate mem k mb es i) : UsablePage mem k mb es i where
  usable x hlo hhi := by
    obtain ⟨e, he, husable⟩ := h.2.1
    obtain ⟨hbase, hlength⟩ := hmap.entry_lt he
    obtain ⟨hend, hstart⟩ := husable.bounds hbase hlength
    by_cases hx : e.base ≤ x
    · exact ⟨e, he, husable.1, hx, by omega⟩
    · obtain rfl : e.base / 4096 = i := by omega
      exact hclean.heads e he husable h x hlo (by omega)
  noOther x hlo hhi := by
    rintro ⟨e, he, htype, hbase, hend⟩
    have := hclean.apart e he htype (by omega) i h
    omega
  high := by
    have := h.high
    omega
  offKernel x hlo hhi := by
    rintro ⟨-, hlt⟩
    have := h.kernel_le
    omega
  offModules x hlo hhi := by
    rintro ⟨hflag, m, hm, hstart, hend⟩
    by_cases hwrap : 2 ^ 32 ≤ modEnd .i386 mem mb m + 4095
    · have := hclean.modules hflag m hm hwrap i h
      omega
    · have := h.off_module hflag hm (by omega)
      omega

theorem mapClean_of_usablePage (h : ∀ i, Candidate mem k mb es i → UsablePage mem k mb es i) :
    MapClean mem k mb es where
  heads e he _ hcand x hlo hlt := (h _ hcand).usable x hlo (by omega)
  apart e he htype hlength i hcand := by
    by_contra hmeets
    -- a byte that both have
    refine (h i hcand).noOther (max (4096 * i) e.base) (by omega) (by omega) ⟨e, he, htype, ?_⟩
    omega
  modules hflag m hm hwrap i hcand := by
    have hi := hcand.1
    simp only [pmmMaxPages] at hi
    by_contra hmeets
    refine (h i hcand).offModules (max (4096 * i) (modStart .i386 mem mb m)) (by omega) (by omega)
      ⟨hflag, m, hm, ?_⟩
    omega

/-- **`pmm_init` frees only usable memory** on the i386 target, exactly if the map and the modules
are clean. -/
theorem pmm_init_usable_iff (hmap : MapAnnounced mem mb es) {fuel : ℕ} {b : Bitmap}
    (h : pmmInit .i386 mem k mb fuel = some b) :
    (∀ i < pmmMaxPages, bitTest b i = false → UsablePage mem k mb es i) ↔
      MapClean mem k mb es := by
  constructor
  · intro husable
    exact mapClean_of_usablePage fun i hcand =>
      husable i hcand.1 ((pmmInit_candidate hmap h hcand.1).mpr hcand)
  · intro hclean i hi hfree
    exact hclean.usablePage hmap ((pmmInit_candidate hmap h hi).mp hfree)

end Usable

/-- The page that `twoPageMap` leaves free at 2 MiB is usable. -/
theorem pmm_init_usable_two_pages : bitTest twoPageBitmap 512 = false ∧
    UsablePage twoPageMap smallKernel twoPageInfo [⟨20, 0x200000, 0x2000, 1, by decide⟩] 512 := by
  have hmap : MapAnnounced twoPageMap twoPageInfo [⟨20, 0x200000, 0x2000, 1, by decide⟩] :=
    ⟨rfl, fun x hx => by obtain rfl := List.mem_singleton.mp hx; exact ⟨rfl, rfl, rfl, rfl⟩,
      rfl, by decide⟩
  have hinit : pmmInit .i386 twoPageMap smallKernel twoPageInfo 2 = some twoPageBitmap := rfl
  have hfree : bitTest twoPageBitmap 512 = false :=
    (twoPageBitmap_free (by decide)).mpr (by decide)
  refine ⟨hfree, (pmm_init_usable_iff hmap hinit).mpr ⟨?_, ?_, ?_⟩ 512 (by decide) hfree⟩
  · intro e he _ _ x hlo hlt
    obtain rfl := List.mem_singleton.mp he
    dsimp only at hlo hlt
    omega
  · intro e he htype
    obtain rfl := List.mem_singleton.mp he
    exact absurd rfl htype
  · intro _ m hm hwrap
    obtain rfl : m = 0 := by simpa [twoPageInfo] using hm
    have hend : modEnd .i386 twoPageMap twoPageInfo 0 = 0 := rfl
    omega

/-- A map of one usable entry, of 0x1800 bytes at 0x200800. -/
def unalignedMap : Bytes := fun a =>
  if a = 0x9000 then 20 else if a = 0x9005 then 0x08 else if a = 0x9006 then 0x20
  else if a = 0x900D then 0x18 else if a = 0x9014 then 1 else 0

/-- Of `unalignedMap` the page at 2 MiB is left free, of which the map says nothing up to
0x200800. -/
theorem unaligned_start_freed : ¬ ∀ (mem : Bytes) (k : KernelImage) (mb : MultibootInfo)
    (es : List MmapEntry) (fuel : ℕ) (b : Bitmap), MapAnnounced mem mb es →
    pmmInit .i386 mem k mb fuel = some b →
    ∀ i < pmmMaxPages, bitTest b i = false → UsablePage mem k mb es i := by
  intro hall
  have hmap : MapAnnounced unalignedMap twoPageInfo [⟨20, 0x200800, 0x1800, 1, by decide⟩] :=
    ⟨rfl, fun x hx => by obtain rfl := List.mem_singleton.mp hx; exact ⟨rfl, rfl, rfl, rfl⟩,
      rfl, by decide⟩
  obtain ⟨b, hb, -⟩ := pmmInit_placed (t := .i386) (k := smallKernel) hmap
  have hcand : Candidate unalignedMap smallKernel twoPageInfo
      [⟨20, 0x200800, 0x1800, 1, by decide⟩] 512 := by
    refine ⟨by decide, ⟨_, List.mem_singleton_self _, rfl, by decide, by decide⟩, ?_⟩
    rintro (h | h | ⟨-, m, hm, -, hend⟩)
    · omega
    · have := lt_kernelEndPage.mp h.2
      simp only [smallKernel] at this
      omega
    · obtain rfl : m = 0 := by simpa [twoPageInfo] using hm
      have hzero : modEnd .i386 unalignedMap twoPageInfo 0 = 0 := rfl
      rw [hzero] at hend
      omega
  have husable := hall _ _ _ _ _ _ hmap hb 512 hcand.1
    ((pmmInit_candidate hmap hb hcand.1).mpr hcand)
  obtain ⟨e, he, -, hbase, -⟩ := husable.usable 0x200000 (by decide) (by decide)
  obtain rfl := List.mem_singleton.mp he
  exact absurd hbase (by decide)

end ZeptoOS
