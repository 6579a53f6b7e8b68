import Mathlib.Tactic.Ring
import ZeptoOS.Mm.Ownership

/-!
# Mm — MemoryMap

How the two targets decode one Multiboot memory map.  The loader writes an entry as `size` at 0,
`base` at 4, `length` at 12 and `type` at 20, the next entry at `size + 4` (`MapAt`).  The i386
build reads it so (`entryFrees_i386`).  The x86_64 build, whose 64-bit members are aligned to 8,
takes the high half of the base and the low half of the length for a base, the high half of the
length and the type for a length, and the word after the type for a type (`entryFrees_x86_64`).

`mmapLoop_placed` runs the loop over a map of any number of entries; `pmm_init_same_pages_iff`
says exactly on which maps the two builds leave the same pages free.
-/

namespace ZeptoOS
open Lib

/-! ### Little-endian numbers -/

/-- The little-endian number in `n` bytes at `a`. -/
def leBytes (mem : Bytes) (a : ℕ) : ℕ → ℕ
  | 0 => 0
  | n + 1 => (mem a).toNat + 256 * leBytes mem (a + 1) n

theorem leBytes_lt (mem : Bytes) : ∀ (n a : ℕ), leBytes mem a n < 256 ^ n
  | 0, _ => by simp [leBytes]
  | n + 1, a => by
      have := leBytes_lt mem n (a + 1)
      have := (mem a).isLt
      rw [leBytes, Nat.pow_succ]
      omega

theorem leBytes_add (mem : Bytes) (n : ℕ) :
    ∀ (m a : ℕ), leBytes mem a (m + n) = leBytes mem a m + 256 ^ m * leBytes mem (a + m) n
  | 0, a => by simp [leBytes]
  | m + 1, a => by
      rw [Nat.succ_add, leBytes, leBytes, leBytes_add mem n m (a + 1), Nat.pow_succ,
        show a + 1 + m = a + (m + 1) by omega]
      ring

/-- The halves of a 64-bit number. -/
theorem leBytes_eight (mem : Bytes) (a : ℕ) :
    leBytes mem a 8 = leBytes mem a 4 + 2 ^ 32 * leBytes mem (a + 4) 4 :=
  leBytes_add mem 4 4 a

/-- A number that does not reach the top of the address space is read as it lies. -/
theorem Target.le_eq {t : Target} {mem : Bytes} :
    ∀ {n a : ℕ}, a + n ≤ 2 ^ t.ptrBits → t.le mem a n = leBytes mem a n
  | 0, _, _ => rfl
  | n + 1, a, h => by
      rw [Target.le, leBytes, Nat.mod_eq_of_lt (by omega), Target.le_eq (by omega)]

/-! ### A map in memory -/

/-- An entry of a memory map, as the loader means it. -/
structure MmapEntry where
  size : ℕ
  base : ℕ
  length : ℕ
  type : ℕ
  size_le : 20 ≤ size

/-- The entries with the addresses they lie at. -/
def placed : ℕ → List MmapEntry → List (ℕ × MmapEntry)
  | _, [] => []
  | a, e :: es => (a, e) :: placed (a + e.size + 4) es

/-- The bytes a map takes. -/
def span : List MmapEntry → ℕ
  | [] => 0
  | e :: es => e.size + 4 + span es

/-- The entry `e` lies at `a`. -/
structure EntryAt (mem : Bytes) (a : ℕ) (e : MmapEntry) : Prop where
  size : leBytes mem a 4 = e.size
  base : leBytes mem (a + 4) 8 = e.base
  length : leBytes mem (a + 12) 8 = e.length
  type : leBytes mem (a + 20) 4 = e.type

/-- The map `es` lies at `a`. -/
def MapAt (mem : Bytes) (a : ℕ) (es : List MmapEntry) : Prop :=
  ∀ x ∈ placed a es, EntryAt mem x.1 x.2

/-- The entry at `a` frees page `i`, as the target reads it. -/
def EntryFrees (t : Target) (mem : Bytes) (a i : ℕ) : Prop :=
  t.le mem (a + t.type) 4 = 1 ∧ t.le mem (a + t.baseAddr) 8 / 4096 ≤ i ∧
    i < (t.le mem (a + t.baseAddr) 8 + t.le mem (a + t.length) 8) % 2 ^ 64 / 4096

/-- Page `i` lies in the usable memory `e` describes. -/
def Usable (e : MmapEntry) (i : ℕ) : Prop :=
  e.type = 1 ∧ e.base / 4096 ≤ i ∧ i < (e.base + e.length) % 2 ^ 64 / 4096

/-- Page `i` lies in the memory read out of `e` with its members displaced by four bytes; the
length's low half must be zero for the displaced base to lie below 16 MiB at all. -/
def Misread (mem : Bytes) (a : ℕ) (e : MmapEntry) (i : ℕ) : Prop :=
  leBytes mem (a + 24) 4 = 1 ∧ e.length % 2 ^ 32 = 0 ∧ e.base / 2 ^ 32 / 4096 ≤ i ∧
    i < (e.base / 2 ^ 32 + e.length / 2 ^ 32 + 2 ^ 32 * e.type) % 2 ^ 64 / 4096

theorem test_freeEntry {t : Target} {mem : Bytes} {b : Bitmap} {a i : ℕ} (hi : i < pmmMaxPages) :
    bitTest (freeEntry t mem b a) i = false ↔ bitTest b i = false ∨ EntryFrees t mem a i := by
  rw [freeEntry, EntryFrees]
  split
  · rename_i htype
    simp only [bitTest, PackedBits.test_clearRange, Bool.and_eq_false_iff, Bool.not_eq_false',
      decide_eq_true_iff, lt_min_iff, hi, and_true, htype, true_and]
    exact or_comm
  · rename_i htype
    simp only [htype, false_and, or_false]

/-- **The map loop.**  Over a map that ends below 4 GiB the loop ends, and has freed the pages
its entries free. -/
theorem mmapLoop_placed {t : Target} {mem : Bytes} {last : ℕ} (hlast : last < 2 ^ 32) :
    ∀ {es : List MmapEntry} {a fuel : ℕ} {b : Bitmap}, MapAt mem a es → a + span es = last →
      es.length < fuel → ∃ b', mmapLoop t mem last fuel a b = some b' ∧ ∀ i < pmmMaxPages,
        bitTest b' i = false ↔ bitTest b i = false ∨ ∃ x ∈ placed a es, EntryFrees t mem x.1 i
  | [], a, fuel + 1, b, _, hspan, _ => by
      simp only [span, Nat.add_zero] at hspan
      exact ⟨b, by simp [mmapLoop, hspan], fun i _ => by simp [placed]⟩
  | e :: es, a, fuel + 1, b, hmap, hspan, hfuel => by
      simp only [span] at hspan
      have he := hmap (a, e) List.mem_cons_self
      have hbits := t.two_pow_le
      have hsize : leBytes mem a 4 = e.size := he.size
      have hnext : (a + t.le mem a 4 + 4) % 2 ^ t.ptrBits = a + e.size + 4 := by
        have := e.size_le
        rw [Target.le_eq (by omega), hsize, Nat.mod_eq_of_lt (by omega)]
      have hrest : MapAt mem (a + e.size + 4) es := fun x hx => hmap x (List.mem_cons_of_mem _ hx)
      have hfuel : es.length < fuel := by simpa using hfuel
      obtain ⟨b', hb', hfree⟩ := mmapLoop_placed (t := t) (b := freeEntry t mem b a) hlast hrest
        (by omega) hfuel
      refine ⟨b', ?_, fun i hi => ?_⟩
      · rw [mmapLoop, if_pos (by omega), hnext]
        exact hb'
      · rw [hfree i hi, test_freeEntry hi, placed]
        simp only [List.mem_cons, exists_eq_or_imp, or_assoc]

/-- The i386 build reads what the loader wrote. -/
theorem entryFrees_i386 {mem : Bytes} {a i : ℕ} {e : MmapEntry} (he : EntryAt mem a e)
    (ha : a + 24 ≤ 2 ^ 32) : EntryFrees .i386 mem a i ↔ Usable e i := by
  have hle : ∀ {off n}, off + n ≤ 24 →
      Target.i386.le mem (a + off) n = leBytes mem (a + off) n :=
    fun h => Target.le_eq (by simp only [Target.ptrBits]; omega)
  rw [EntryFrees, Usable]
  simp only [Target.type, Target.baseAddr, Target.length]
  rw [hle (by decide), hle (by decide), hle (by decide), he.base, he.length, he.type]

/-- **The x86_64 build reads every member after `size` four bytes too far on.** -/
theorem entryFrees_x86_64 {mem : Bytes} {a i : ℕ} {e : MmapEntry} (he : EntryAt mem a e)
    (ha : a + 24 ≤ 2 ^ 32) (hi : i < pmmMaxPages) :
    EntryFrees .x86_64 mem a i ↔ Misread mem a e i := by
  have hle : ∀ {off n}, off + n ≤ 32 →
      Target.x86_64.le mem (a + off) n = leBytes mem (a + off) n :=
    fun h => Target.le_eq (by simp only [Target.ptrBits]; omega)
  have hbase := he.base
  have hlength := he.length
  have h₁ := leBytes_lt mem 4 (a + 4)
  have h₂ := leBytes_lt mem 4 (a + 12)
  rw [leBytes_eight, Nat.add_assoc] at hbase hlength
  simp only [Nat.reduceAdd] at hbase hlength
  have hbase' : leBytes mem (a + 8) 8 = e.base / 2 ^ 32 + 2 ^ 32 * (e.length % 2 ^ 32) := by
    rw [leBytes_eight, Nat.add_assoc]
    simp only [Nat.reduceAdd]
    omega
  have hlength' : leBytes mem (a + 16) 8 = e.length / 2 ^ 32 + 2 ^ 32 * e.type := by
    rw [leBytes_eight, Nat.add_assoc, ← he.type]
    simp only [Nat.reduceAdd]
    omega
  rw [EntryFrees, Misread]
  simp only [Target.type, Target.baseAddr, Target.length]
  rw [hle (by decide), hle (by decide), hle (by decide), hbase', hlength']
  simp only [pmmMaxPages] at hi
  refine and_congr_right fun _ => ?_
  by_cases hlow : e.length % 2 ^ 32 = 0
  · simp only [hlow, Nat.mul_zero, Nat.add_zero, true_and, Nat.add_assoc]
  · refine ⟨fun h => ?_, fun h => absurd h.1 hlow⟩
    omega

/-! ### Both builds -/

/-- The module list lies below 4 GiB. -/
def ModulesFit (mb : MultibootInfo) : Prop :=
  mb.flags.getLsbD 3 = true → mb.modsAddr.toNat + 16 * mb.modsCount.toNat ≤ 2 ^ 32

/-- Both builds reserve the same pages. -/
theorem reserved_i386_iff {mem : Bytes} {k : KernelImage} {mb : MultibootInfo} {i : ℕ}
    (hmods : ModulesFit mb) : Reserved .i386 mem k mb i ↔ Reserved .x86_64 mem k mb i := by
  rw [Reserved, Reserved, lt_kernelEndPage, lt_kernelEndPage]
  refine or_congr_right (or_congr_right (and_congr_right fun hflag => ?_))
  refine exists_congr fun m => and_congr_right fun hm => ?_
  have hfit := hmods hflag
  have h : ∀ {t : Target} {off}, off ≤ 4 → t.le mem (modAddr mb m + off) 4 =
      leBytes mem (modAddr mb m + off) 4 := fun {t off} hoff => by
    have hbits := t.two_pow_le
    exact Target.le_eq (by simp only [modAddr]; omega)
  have hs : ∀ t : Target, modStart t mem mb m = leBytes mem (modAddr mb m) 4 :=
    fun t => h (Nat.zero_le 4)
  have he : ∀ t : Target, modEnd t mem mb m = leBytes mem (modAddr mb m + 4) 4 :=
    fun t => h (by decide)
  rw [hs, hs, he, he]

/-- A map announced in `mb` lies in memory below 4 GiB. -/
structure MapAnnounced (mem : Bytes) (mb : MultibootInfo) (es : List MmapEntry) : Prop where
  flag : mb.flags.getLsbD 6 = true
  map : MapAt mem mb.mmapAddr.toNat es
  length : mb.mmapLength.toNat = span es
  fits : mb.mmapAddr.toNat + span es < 2 ^ 32

theorem pmmInit_placed {t : Target} {mem : Bytes} {k : KernelImage} {mb : MultibootInfo}
    {es : List MmapEntry} (hmap : MapAnnounced mem mb es) :
    ∃ b, pmmInit t mem k mb (es.length + 1) = some b ∧ ∀ i < pmmMaxPages,
      bitTest b i = false ↔ (∃ x ∈ placed mb.mmapAddr.toNat es, EntryFrees t mem x.1 i) ∧
        ¬ Reserved t mem k mb i := by
  have hbits := t.two_pow_le
  have hfits := hmap.fits
  obtain ⟨b', hb', hfree⟩ := mmapLoop_placed (t := t) (b := allUsed) hmap.fits hmap.map rfl
    (Nat.lt_succ_self es.length)
  refine ⟨reserve t mem k mb b', ?_, fun i hi => ?_⟩
  · rw [pmmInit, if_pos hmap.flag, hmap.length, Nat.mod_eq_of_lt (by omega), hb']
    rfl
  · rw [test_reserve hi, hfree i hi]
    simp

/-- More fuel does not change what the walk returns. -/
theorem mmapLoop_more {t : Target} {mem : Bytes} {last n : ℕ} : ∀ {fuel a : ℕ} {b b' : Bitmap},
    mmapLoop t mem last fuel a b = some b' → mmapLoop t mem last (fuel + n) a b = some b'
  | fuel + 1, a, b, b', h => by
      rw [Nat.add_right_comm, mmapLoop]
      rw [mmapLoop] at h
      split
      · rename_i hlt
        rw [if_pos hlt] at h
        exact mmapLoop_more h
      · rename_i hge
        rwa [if_neg hge] at h

theorem pmmInit_more {t : Target} {mem : Bytes} {k : KernelImage} {mb : MultibootInfo}
    {fuel n : ℕ} {b : Bitmap} (h : pmmInit t mem k mb fuel = some b) :
    pmmInit t mem k mb (fuel + n) = some b := by
  obtain ⟨b', hb', rfl⟩ := Option.map_eq_some_iff.mp h
  refine Option.map_eq_some_iff.mpr ⟨b', ?_, rfl⟩
  split
  · rename_i hflag
    rw [if_pos hflag] at hb'
    exact mmapLoop_more hb'
  · rename_i hflag
    rwa [if_neg hflag] at hb'

/-- Page `i` is one that `pmm_init` leaves free. -/
def Offered (t : Target) (mem : Bytes) (k : KernelImage) (mb : MultibootInfo)
    (es : List MmapEntry) (i : ℕ) : Prop :=
  i < pmmMaxPages ∧ (∃ x ∈ placed mb.mmapAddr.toNat es, EntryFrees t mem x.1 i) ∧
    ¬ Reserved t mem k mb i

theorem pmmInit_offered {t : Target} {mem : Bytes} {k : KernelImage} {mb : MultibootInfo}
    {es : List MmapEntry} (hmap : MapAnnounced mem mb es) {fuel : ℕ} {b : Bitmap}
    (h : pmmInit t mem k mb fuel = some b) {i : ℕ} (hi : i < pmmMaxPages) :
    bitTest b i = false ↔ Offered t mem k mb es i := by
  obtain ⟨b', hb', hfree⟩ := pmmInit_placed (t := t) (k := k) hmap
  have hsame : b = b' := by
    have := pmmInit_more (n := es.length + 1) h
    rw [Nat.add_comm, pmmInit_more hb'] at this
    exact (Option.some.inj this).symm
  rw [hsame, hfree i hi, Offered]
  exact (and_iff_right hi).symm

theorem mem_placed_le {x : ℕ × MmapEntry} :
    ∀ {es : List MmapEntry} {a : ℕ}, x ∈ placed a es → x.1 + 24 ≤ a + span es
  | e :: es, a, hx => by
      have := e.size_le
      rcases List.mem_cons.mp hx with rfl | hx
      · simp only [span]
        omega
      · have := mem_placed_le hx
        simp only [span]
        omega

/-- **When the two builds agree.**  Over a memory map of any number of entries and any module
list below 4 GiB both builds end, and they leave the same pages free if and only if, of the pages
outside the first megabyte, the kernel and the modules, the entries cover the same ones as they
do when their members are read four bytes too far on. -/
theorem pmm_init_same_pages_iff (mem : Bytes) (k : KernelImage) (mb : MultibootInfo)
    (es : List MmapEntry) (hmap : MapAnnounced mem mb es) (hmods : ModulesFit mb) :
    ∃ fuel b₃₂ b₆₄, pmmInit .i386 mem k mb fuel = some b₃₂ ∧
      pmmInit .x86_64 mem k mb fuel = some b₆₄ ∧
      ((∀ i < pmmMaxPages, bitTest b₃₂ i = bitTest b₆₄ i) ↔
        ∀ i < pmmMaxPages, ¬ Reserved .i386 mem k mb i →
          ((∃ x ∈ placed mb.mmapAddr.toNat es, Usable x.2 i) ↔
            ∃ x ∈ placed mb.mmapAddr.toNat es, Misread mem x.1 x.2 i)) := by
  obtain ⟨b₃₂, h₃₂, hfree₃₂⟩ := pmmInit_placed (t := .i386) (k := k) hmap
  obtain ⟨b₆₄, h₆₄, hfree₆₄⟩ := pmmInit_placed (t := .x86_64) (k := k) hmap
  refine ⟨es.length + 1, b₃₂, b₆₄, h₃₂, h₆₄, forall_congr' fun i => forall_congr' fun hi => ?_⟩
  have hfits := hmap.fits
  have hle : ∀ x ∈ placed mb.mmapAddr.toNat es, x.1 + 24 ≤ 2 ^ 32 :=
    fun x hx => by have := mem_placed_le hx; omega
  have husable : (∃ x ∈ placed mb.mmapAddr.toNat es, EntryFrees .i386 mem x.1 i) ↔
      ∃ x ∈ placed mb.mmapAddr.toNat es, Usable x.2 i :=
    exists_congr fun x => and_congr_right fun hx => entryFrees_i386 (hmap.map x hx) (hle x hx)
  have hmisread : (∃ x ∈ placed mb.mmapAddr.toNat es, EntryFrees .x86_64 mem x.1 i) ↔
      ∃ x ∈ placed mb.mmapAddr.toNat es, Misread mem x.1 x.2 i :=
    exists_congr fun x => and_congr_right fun hx =>
      entryFrees_x86_64 (hmap.map x hx) (hle x hx) hi
  have h₁ := hfree₃₂ i hi
  have h₂ := hfree₆₄ i hi
  rw [husable] at h₁
  rw [hmisread, ← reserved_i386_iff hmods] at h₂
  have heq : bitTest b₃₂ i = bitTest b₆₄ i ↔ (bitTest b₃₂ i = false ↔ bitTest b₆₄ i = false) := by
    cases bitTest b₃₂ i <;> cases bitTest b₆₄ i <;> simp
  rw [heq, h₁, h₂]
  by_cases hres : Reserved .i386 mem k mb i
  · simp [hres]
  · simp [hres]

/-- A map of one usable entry, the conventional memory below 640 KiB. -/
def lowMemoryMap : Bytes := fun a =>
  if a = 0x9000 then 20 else if a = 0x900D then 0xFC else if a = 0x900E then 0x09
  else if a = 0x9014 then 1 else 0

theorem pmm_init_same_pages_low_memory :
    ∃ fuel b₃₂ b₆₄, pmmInit .i386 lowMemoryMap smallKernel twoPageInfo fuel = some b₃₂ ∧
      pmmInit .x86_64 lowMemoryMap smallKernel twoPageInfo fuel = some b₆₄ ∧
      ∀ i < pmmMaxPages, bitTest b₃₂ i = bitTest b₆₄ i := by
  have hmap : MapAnnounced lowMemoryMap twoPageInfo [⟨20, 0, 0x9FC00, 1, by decide⟩] :=
    ⟨rfl, fun x hx => by obtain rfl := List.mem_singleton.mp hx; exact ⟨rfl, rfl, rfl, rfl⟩,
      rfl, by decide⟩
  obtain ⟨fuel, b₃₂, b₆₄, h₃₂, h₆₄, hiff⟩ := pmm_init_same_pages_iff lowMemoryMap smallKernel
    twoPageInfo _ hmap (fun _ => by decide)
  refine ⟨fuel, b₃₂, b₆₄, h₃₂, h₆₄, hiff.mpr fun i _ hres => ⟨?_, ?_⟩⟩
  · rintro ⟨x, hx, -, -, hlt⟩
    obtain rfl := List.mem_singleton.mp hx
    exact absurd (Or.inl (show i < 256 by simp only at hlt; omega)) hres
  · rintro ⟨x, hx, hword, -⟩
    obtain rfl := List.mem_singleton.mp hx
    exact absurd hword (by decide)

/-- On `twoPageMap` the i386 build leaves the page at 2 MiB free and the x86_64 build does not. -/
theorem pmm_init_two_pages_differ :
    MapAnnounced twoPageMap twoPageInfo [⟨20, 0x200000, 0x2000, 1, by decide⟩] ∧
      ModulesFit twoPageInfo ∧
      ∃ b₃₂ b₆₄, pmmInit .i386 twoPageMap smallKernel twoPageInfo 2 = some b₃₂ ∧
        pmmInit .x86_64 twoPageMap smallKernel twoPageInfo 2 = some b₆₄ ∧
        bitTest b₃₂ 512 = false ∧ bitTest b₆₄ 512 = true := by
  refine ⟨⟨rfl, fun x hx => ?_, rfl, by decide⟩, fun _ => by decide, twoPageBitmap,
    reserve .x86_64 twoPageMap smallKernel twoPageInfo
      (freeEntry .x86_64 twoPageMap allUsed 0x9000), rfl, rfl,
    (twoPageBitmap_free (by decide)).mpr (by decide), ?_⟩
  · obtain rfl := List.mem_singleton.mp hx
    exact ⟨rfl, rfl, rfl, rfl⟩
  · have hentry : freeEntry .x86_64 twoPageMap allUsed 0x9000 = allUsed := rfl
    rw [hentry, ← Bool.not_eq_false, test_reserve (by decide), test_allUsed]
    simp

end ZeptoOS
