import Mathlib.Data.Nat.Nth
import ZeptoOS.I386.Vmm

/-!
# I386 — InitPaging

The pages that `init_paging` takes.  `pmm_alloc` takes the lowest page that is free
(`FirstTaken.alloc`), and `init_paging` calls it for the directory and for the table of every
4 MiB of the first 16 MiB: `initPaging_firstTaken` says that it leaves all the free pages but the
lowest five.
-/

namespace ZeptoOS
open Lib

/-- Of the pages free in `b₀` those are free in `b` that have `n` or more of them below. -/
def FirstTaken (n : ℕ) (b₀ b : Bitmap) : Prop :=
  ∀ i, bitTest b i = false ↔
    bitTest b₀ i = false ∧ n ≤ Nat.count (fun j => bitTest b₀ j = false) i

theorem FirstTaken.none (b : Bitmap) : FirstTaken 0 b b := fun _ => by simp

theorem exists_count_eq {p : ℕ → Prop} [DecidablePred p] {n k : ℕ} (h : n < Nat.count p k) :
    ∃ j < k, p j ∧ Nat.count p j = n := by
  have hcard : ∀ hf : (Set.ofPred p).Finite, n < hf.toFinset.card :=
    fun hf => Nat.lt_of_lt_of_le h (Nat.count_le_card hf k)
  exact ⟨Nat.nth p n, Nat.nth_lt_of_lt_count h, Nat.nth_mem n hcard, Nat.count_nth hcard⟩

/-- `pmm_alloc` takes the lowest free page. -/
theorem pmmAlloc_first {b b' : Bitmap} {p : ℕ} (h : pmmAlloc b = some (p, b')) :
    ∃ k < pmmMaxPages, bitTest b k = false ∧ (∀ j < k, bitTest b j = true) ∧ p = k * 4096 ∧
      b' = bitSet b k := by
  obtain ⟨k, hk, hfree, -⟩ := pmmAlloc_some h
  have hex : ∃ k, bitTest b k = false := ⟨k, hfree⟩
  have hmin := Nat.find_min' hex hfree
  have hused : ∀ j < Nat.find hex, bitTest b j = true :=
    fun j hj => by simpa using Nat.find_min hex hj
  rw [pmmAlloc_eq (by omega) (Nat.find_spec hex) hused] at h
  cases h
  exact ⟨_, by omega, Nat.find_spec hex, hused, rfl, rfl⟩

theorem FirstTaken.alloc {n : ℕ} {b₀ b b' : Bitmap} {p : ℕ} (hb : FirstTaken n b₀ b)
    (h : pmmAlloc b = some (p, b')) : FirstTaken (n + 1) b₀ b' := by
  obtain ⟨k, -, hfree, hfirst, -, rfl⟩ := pmmAlloc_first h
  obtain ⟨hk, hcount⟩ := (hb k).mp hfree
  -- a page counted before `k` would be free, and lower
  have hn : Nat.count (fun j => bitTest b₀ j = false) k = n := by
    by_contra hne
    have hlt : n < Nat.count (fun j => bitTest b₀ j = false) k := by omega
    obtain ⟨j, hjk, hj, hjn⟩ := exists_count_eq hlt
    have hused := hfirst j hjk
    rw [(hb j).mpr ⟨hj, by omega⟩] at hused
    cases hused
  intro i
  have hset : bitTest (bitSet b k) i = false ↔ i ≠ k ∧ bitTest b i = false := by
    rw [bitTest, bitSet, PackedBits.test_set, Bool.or_eq_false_iff, decide_eq_false_iff_not]
  rw [hset, hb i]
  constructor
  · rintro ⟨hne, hi, hle⟩
    refine ⟨hi, Nat.lt_of_le_of_ne hle fun e => hne ?_⟩
    exact Nat.count_injective hi hk (e.symm.trans hn.symm)
  · rintro ⟨hi, hle⟩
    exact ⟨fun e => by rw [e, hn] at hle; omega, hi, by omega⟩

namespace I386

/-- The directory at `pd` after the first `n` pages are mapped, from a bitmap `b₀`: a table for
every 4 MiB begun. -/
structure Filled (b₀ : Bitmap) (pd n : ℕ) (h : Machine) : Prop where
  low : LowReserved b₀
  pool : FirstTaken (1 + (n + 1023) / 1024) b₀ h.pool
  page : pd % 4096 = 0
  busy : ¬ PageFree h.pool pd
  table : ∀ k : Fin 1024, 1024 * k < n → h.mem.cell (slot pd k) &&& pagePresent ≠ 0 ∧
    (h.mem.cell (slot pd k) &&& frameMask).toNat % 4096 = 0 ∧
    (h.mem.cell (slot pd k) &&& frameMask).toNat ≠ pd
  empty : ∀ k : Fin 1024, n ≤ 1024 * k → h.mem.cell (slot pd k) = 0

/-- Two slots of one page are slots of one table. -/
theorem slot_ne {p q : ℕ} (hp : p % 4096 = 0) (hq : q % 4096 = 0) (hne : p ≠ q)
    (i j : Fin 1024) : slot p i ≠ slot q j := by
  have hi := i.isLt
  have hj := j.isLt
  simp only [slot]
  omega

theorem clearTable_same {mem : Store ℕ Word} {p : ℕ} (i : Fin 1024) :
    (clearTable mem p).cell (slot p i) = 0 := by
  have hi := List.mem_finRange i
  rw [clearTable]
  generalize List.finRange 1024 = indices at hi ⊢
  exact Store.setAll_cell_slot (fun j _ e => Fin.ext (by simp only [slot] at e; omega)) hi

theorem clearTable_other {mem : Store ℕ Word} {p q : ℕ} (hp : p % 4096 = 0) (hq : q % 4096 = 0)
    (hne : p ≠ q) (i : Fin 1024) : (clearTable mem q).cell (slot p i) = mem.cell (slot p i) := by
  rw [clearTable]
  generalize List.finRange 1024 = indices
  exact Store.setAll_cell_other fun j _ => slot_ne hp hq hne i j

/-- Free pages stay out of the reserved ones. -/
theorem Filled.pageAddr {b₀ : Bitmap} {pd n : ℕ} {h : Machine} (hf : Filled b₀ pd n h) {p : ℕ}
    (hfree : PageFree h.pool p) : PageAddr 32 p := by
  have hlow : LowReserved h.pool := by
    intro i hi
    by_contra hi'
    have hbefore := ((hf.pool i).mp (by simpa using hi')).1
    rw [hf.low i hi] at hbefore
    cases hbefore
  exact pageAddr_of_free hlow hfree

/-- Where a stretch of 4 MiB begins, the directory has no entry for it. -/
theorem Filled.begins {b₀ : Bitmap} {pd n : ℕ} {h : Machine} (hf : Filled b₀ pd n h) {k : Fin 1024}
    (hk : (k : ℕ) = n / 1024) :
    h.mem.cell (slot pd k) &&& pagePresent = 0 ↔ n ≤ 1024 * (n / 1024) := by
  constructor
  · intro habsent
    by_contra hlt
    exact (hf.table k (by omega)).1 habsent
  · intro hle
    rw [hf.empty k (by omega)]
    rfl

/-- A table linked at the first stretch that has none. -/
theorem Filled.link {b₀ : Bitmap} {pd n p : ℕ} {h : Machine} (hf : Filled b₀ pd n h)
    {k₀ : Fin 1024} (hk₀ : (k₀ : ℕ) = n / 1024) (hbegin : n ≤ 1024 * (n / 1024)) {pool : Bitmap}
    (htake : pagePool.take h.pool = some (p, pool)) :
    Filled b₀ pd (n + 1) ⟨(clearTable h.mem p).set (slot pd k₀) (fmt.link p), pool⟩ := by
  have hfree : PageFree h.pool p := pagePool.free_of_take htake
  have hp := hf.pageAddr hfree
  have hne : p ≠ pd := by
    rintro rfl
    exact hf.busy hfree
  refine ⟨hf.low, ?_, hf.page, ?_, ?_, ?_⟩
  · have hcount : 1 + (n + 1 + 1023) / 1024 = 1 + (n + 1023) / 1024 + 1 := by omega
    rw [hcount]
    exact hf.pool.alloc htake
  · intro hpd
    exact hf.busy ((pagePool.free_take_iff htake).mp hpd).1
  · intro k hk
    dsimp only
    by_cases hsame : k = k₀
    · subst hsame
      rw [Store.set_cell_same, target_eq, fmt.target_link hp]
      exact ⟨present_iff.mp (fmt.present_link hp), hp.1, hne⟩
    · have hother : (k : ℕ) ≠ n / 1024 := fun e => hsame (Fin.ext (e.trans hk₀.symm))
      have hslot : slot pd k ≠ slot pd k₀ := by
        simp only [slot]
        omega
      rw [Store.set_cell_other hslot, clearTable_other hf.page hp.1 (Ne.symm hne)]
      exact hf.table k (by omega)
  · intro k hk
    dsimp only
    have hslot : slot pd k ≠ slot pd k₀ := by
      simp only [slot]
      omega
    rw [Store.set_cell_other hslot, clearTable_other hf.page hp.1 (Ne.symm hne)]
    exact hf.empty k (by omega)

/-- The table for the next page: one is made where a stretch of 4 MiB begins. -/
theorem Filled.getPageTable {b₀ : Bitmap} {pd n : ℕ} {h h' : Machine} (hf : Filled b₀ pd n h)
    {virt : Word} (hidx : (pdIdx virt : ℕ) = n / 1024) {pt : ℕ}
    (e : getPageTable h pd virt true = some (pt, h')) :
    pt % 4096 = 0 ∧ pt ≠ pd ∧ Filled b₀ pd (n + 1) h' := by
  rw [I386.getPageTable] at e
  by_cases habsent : h.mem.cell (slot pd (pdIdx virt)) &&& pagePresent = 0
  · rw [if_pos habsent, if_neg (by decide)] at e
    simp only [Option.bind_eq_bind, Option.bind_eq_some_iff, Option.some.injEq,
      Prod.mk.injEq] at e
    obtain ⟨⟨p, pool⟩, halloc, rfl, rfl⟩ := e
    have htake : pagePool.take h.pool = some (p, pool) := halloc
    have hfree : PageFree h.pool p := pagePool.free_of_take htake
    have hp := hf.pageAddr hfree
    rw [Store.set_cell_same, link_eq, target_eq, fmt.target_link hp]
    refine ⟨hp.1, ?_, hf.link hidx ((hf.begins hidx).mp habsent) htake⟩
    rintro rfl
    exact hf.busy hfree
  · rw [if_neg habsent] at e
    cases e
    have hbegun : 1024 * (n / 1024) < n := Nat.not_le.mp (mt (hf.begins hidx).mpr habsent)
    obtain ⟨-, hpage, hne⟩ := hf.table (pdIdx virt) (by omega)
    refine ⟨hpage, hne, hf.low, ?_, hf.page, hf.busy, ?_, ?_⟩
    · have hcount : 1 + (n + 1 + 1023) / 1024 = 1 + (n + 1023) / 1024 := by omega
      rw [hcount]
      exact hf.pool
    · intro k hk
      exact hf.table k (by omega)
    · intro k hk
      exact hf.empty k (by omega)

/-- **One page mapped.** -/
theorem Filled.map {b₀ : Bitmap} {pd n : ℕ} {h h' : Machine} (hf : Filled b₀ pd n h)
    (hn : n < 0x1000) {phys flags : Word}
    (e : vmmMapPage h pd (BitVec.ofNat 32 (0x1000 * n)) phys flags = some h') :
    Filled b₀ pd (n + 1) h' := by
  have hidx : (pdIdx (BitVec.ofNat 32 (0x1000 * n)) : ℕ) = n / 1024 := by
    rw [pdIdx_toNat, BitVec.toNat_ofNat]
    omega
  simp only [vmmMapPage, Option.bind_eq_bind, Option.bind_eq_some_iff, Option.some.injEq] at e
  obtain ⟨⟨pt, h₁⟩, htable, rfl⟩ := e
  obtain ⟨hpt, hne, hf₁⟩ := hf.getPageTable hidx htable
  have hcell : ∀ k, (h₁.mem.set (slot pt (ptIdx (BitVec.ofNat 32 (0x1000 * n))))
      ((phys &&& frameMask) ||| flags ||| pagePresent)).cell (slot pd k) =
      h₁.mem.cell (slot pd k) :=
    fun k => Store.set_cell_other (slot_ne hf₁.page hpt (Ne.symm hne) k _)
  exact ⟨hf₁.low, hf₁.pool, hf₁.page, hf₁.busy, fun k hk => by rw [hcell]; exact hf₁.table k hk,
    fun k hk => by rw [hcell]; exact hf₁.empty k hk⟩

theorem Filled.mapAll {b₀ : Bitmap} {pd : ℕ} {h : Machine} (hf : Filled b₀ pd 0 h) :
    ∀ (n : ℕ) {h' : Machine}, n ≤ 0x1000 → (List.range n).foldlM (fun h i =>
      let addr := BitVec.ofNat 32 (0x1000 * i)
      vmmMapPage h pd addr addr (pagePresent ||| pageWrite ||| pageUser)) h = some h' →
      Filled b₀ pd n h'
  | 0, h', _, e => by
      cases e
      exact hf
  | n + 1, h', hn, e => by
      rw [List.range_succ, List.foldlM_append, Option.bind_eq_bind, Option.bind_eq_some_iff] at e
      obtain ⟨h₁, e₁, e₂⟩ := e
      exact (hf.mapAll n (by omega) e₁).map hn (by simpa using e₂)

/-- **`init_paging`** takes the five lowest free pages, the directory and four tables. -/
theorem initPaging_firstTaken {h h' : Machine} {pd : ℕ} (hlow : LowReserved h.pool)
    (e : initPaging h = some (pd, h')) : FirstTaken 5 h.pool h'.pool := by
  simp only [initPaging, Option.bind_eq_bind, Option.bind_eq_some_iff, Option.some.injEq,
    Prod.mk.injEq] at e
  obtain ⟨⟨p, pool⟩, halloc, h₁, hloop, rfl, rfl⟩ := e
  have htake : pagePool.take h.pool = some (p, pool) := halloc
  have hfree : PageFree h.pool p := pagePool.free_of_take htake
  have hf : Filled h.pool p 0 ⟨clearTable h.mem p, pool⟩ := by
    refine ⟨hlow, (FirstTaken.none h.pool).alloc halloc, hfree.1, fun hp => ?_, fun k hk => ?_,
      fun k _ => ?_⟩
    · exact ((pagePool.free_take_iff htake).mp hp).2 rfl
    · exact absurd hk (Nat.not_lt_zero _)
    · dsimp only
      rw [clearTable_same]
  exact (hf.mapAll 0x1000 le_rfl hloop).pool

end I386

end ZeptoOS
