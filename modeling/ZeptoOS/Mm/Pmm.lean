import ZeptoOS.Lib.PackedBits
import ZeptoOS.Lib.Radix

/-!
# Mm — Pmm

`kernel/mm/pmm.c`: the bitmap of physical pages below 16 MiB and its three operations.  A set bit
is a page in use.  `none` stands for `panic`, which never returns.

`pmmAlloc_some` and `pmmAllocPages_some` say what a call that returns has found and marked, and
`alloc_pages_first_fit` that `pmm_alloc_pages` finds the first run there is; `pagePool` is
`pmm_alloc` as the pool of blocks that page tables are made from.
-/

namespace ZeptoOS
open Lib

/-- `PMM_MAX_PAGES` -/
def pmmMaxPages : ℕ := 16 * 1024 * 1024 / 4096

/-- `pmm_bitmap` -/
abbrev Bitmap := PackedBits

/-- `BIT_SET(a, i)` -/
abbrev bitSet (a : Bitmap) (i : ℕ) : Bitmap := a.set i

/-- `BIT_TEST(a, i)` -/
abbrev bitTest (a : Bitmap) (i : ℕ) : Bool := a.test i

/-- The loop of `pmm_alloc` with `n` pages left, from page `i` on. -/
def pmmAllocLoop (b : Bitmap) : ℕ → ℕ → Option (ℕ × Bitmap)
  | 0, _ => none
  | n + 1, i =>
      if !bitTest b i then some (i * 4096, bitSet b i) else pmmAllocLoop b n (i + 1)

/-- `pmm_alloc`: the address of a page, and the bitmap with the page marked. -/
def pmmAlloc (b : Bitmap) : Option (ℕ × Bitmap) := pmmAllocLoop b pmmMaxPages 0

/-- `pmm_free` -/
def pmmFree (b : Bitmap) (addr : ℕ) : Bitmap :=
  let page := addr / 4096 % 2 ^ 32
  if page < pmmMaxPages then b.clear page else b

/-- The loop of `pmm_alloc_pages` with `n` pages left, from page `i` on; `start` is `none` for
the source's `-1`. -/
def pmmAllocPagesLoop (b : Bitmap) (count : ℤ) : ℕ → ℕ → Option ℕ → ℕ → Option (ℕ × Bitmap)
  | 0, _, _, _ => none
  | n + 1, i, start, found =>
      if !bitTest b i then
        let first := start.getD i
        if ((found + 1 : ℕ) : ℤ) = count then
          some (first * 4096, b.setRange first (first + count.toNat))
        else pmmAllocPagesLoop b count n (i + 1) (some first) (found + 1)
      else pmmAllocPagesLoop b count n (i + 1) none 0

/-- `pmm_alloc_pages` -/
def pmmAllocPages (b : Bitmap) (count : ℤ) : Option (ℕ × Bitmap) :=
  pmmAllocPagesLoop b count pmmMaxPages 0 none 0

/-! ### What a call that returns has done -/

theorem pmmAllocLoop_some {b b' : Bitmap} {p : ℕ} :
    ∀ {n i : ℕ}, pmmAllocLoop b n i = some (p, b') →
      ∃ k, i ≤ k ∧ k < i + n ∧ bitTest b k = false ∧ p = k * 4096 ∧ b' = bitSet b k
  | n + 1, i, h => by
      simp only [pmmAllocLoop] at h
      split at h
      · rename_i ht
        cases h
        exact ⟨i, le_refl i, by omega, by simpa using ht, rfl, rfl⟩
      · obtain ⟨k, hik, hk, hrest⟩ := pmmAllocLoop_some h
        exact ⟨k, by omega, by omega, hrest⟩

/-- **`pmm_alloc`** returns the address of a free page, and marks it. -/
theorem pmmAlloc_some {b b' : Bitmap} {p : ℕ} (h : pmmAlloc b = some (p, b')) :
    ∃ k < pmmMaxPages, bitTest b k = false ∧ p = k * 4096 ∧ b' = bitSet b k := by
  obtain ⟨k, -, hk, hrest⟩ := pmmAllocLoop_some h
  exact ⟨k, by omega, hrest⟩

/-- The loop panics only where every page it looks at is in use. -/
theorem pmmAllocLoop_none {b : Bitmap} :
    ∀ {n i : ℕ}, pmmAllocLoop b n i = none → ∀ k, i ≤ k → k < i + n → bitTest b k = true
  | 0, _, _, k, _, hk => by omega
  | n + 1, i, h, k, hik, hk => by
      simp only [pmmAllocLoop] at h
      split at h
      · cases h
      · rename_i ht
        by_cases e : k = i
        · subst e
          simpa using ht
        · exact pmmAllocLoop_none h k (by omega) (by omega)

theorem pmmAllocLoop_eq {b : Bitmap} {k : ℕ} (hfree : bitTest b k = false) :
    ∀ {n i : ℕ}, i ≤ k → k < i + n → (∀ j, i ≤ j → j < k → bitTest b j = true) →
      pmmAllocLoop b n i = some (k * 4096, bitSet b k)
  | 0, _, hik, hk, _ => absurd hik (by omega)
  | n + 1, i, hik, hk, hused => by
      by_cases e : i = k
      · subst e
        simp [pmmAllocLoop, hfree]
      · have hi := hused i (le_refl i) (by omega)
        rw [pmmAllocLoop, if_neg (by simp [hi])]
        exact pmmAllocLoop_eq hfree (by omega) (by omega) fun j h₁ h₂ => hused j (by omega) h₂

/-- `pmm_alloc` takes the first free page. -/
theorem pmmAlloc_eq {b : Bitmap} {k : ℕ} (hk : k < pmmMaxPages) (hfree : bitTest b k = false)
    (hused : ∀ j < k, bitTest b j = true) : pmmAlloc b = some (k * 4096, bitSet b k) :=
  pmmAllocLoop_eq hfree (Nat.zero_le k) (by omega) fun j _ => hused j

/-- The run the loop has collected: `found` free pages from `start` up to the page before `i`. -/
def Collected (b : Bitmap) (i : ℕ) : Option ℕ → ℕ → Prop
  | none, found => found = 0
  | some s, found => s + found = i ∧ ∀ k, s ≤ k → k < i → bitTest b k = false

theorem Collected.nil (b : Bitmap) (i : ℕ) : Collected b i none 0 := rfl

/-- A free page is added to the run. -/
theorem Collected.push {b : Bitmap} {i : ℕ} {start : Option ℕ} {found : ℕ}
    (hc : Collected b i start found) (ht : bitTest b i = false) :
    Collected b (i + 1) (some (start.getD i)) (found + 1) := by
  cases start with
  | none =>
      obtain rfl : found = 0 := hc
      refine ⟨rfl, fun k h₁ h₂ => ?_⟩
      obtain rfl : k = i := Nat.le_antisymm (Nat.le_of_lt_succ h₂) h₁
      exact ht
  | some s =>
      obtain ⟨rfl, hfree⟩ := hc
      refine ⟨rfl, fun k h₁ h₂ => ?_⟩
      by_cases e : k = s + found
      · exact e ▸ ht
      · exact hfree k h₁ (by omega)

theorem pmmAllocPagesLoop_some {b b' : Bitmap} {count : ℤ} {p : ℕ} :
    ∀ {n i : ℕ} {start : Option ℕ} {found : ℕ}, Collected b i start found →
      pmmAllocPagesLoop b count n i start found = some (p, b') →
      ∃ s, s + count.toNat ≤ i + n ∧ (∀ k, s ≤ k → k < s + count.toNat → bitTest b k = false) ∧
        p = s * 4096 ∧ b' = b.setRange s (s + count.toNat)
  | n + 1, i, start, found, hc, h => by
      simp only [pmmAllocPagesLoop] at h
      split at h
      · rename_i ht
        have hrun := hc.push (by simpa using ht)
        split at h
        · rename_i hcount
          cases h
          obtain ⟨hlen, hfree⟩ := hrun
          have : count.toNat = found + 1 := by omega
          exact ⟨_, by omega, fun k h₁ h₂ => hfree k h₁ (by omega), rfl, rfl⟩
        · obtain ⟨s, hs, hrest⟩ := pmmAllocPagesLoop_some hrun h
          exact ⟨s, by omega, hrest⟩
      · obtain ⟨s, hs, hrest⟩ := pmmAllocPagesLoop_some (Collected.nil b (i + 1)) h
        exact ⟨s, by omega, hrest⟩

/-- **`pmm_alloc_pages`** returns the address of a run of free pages, and marks them. -/
theorem pmmAllocPages_some {b b' : Bitmap} {count : ℤ} {p : ℕ}
    (h : pmmAllocPages b count = some (p, b')) :
    ∃ s, s + count.toNat ≤ pmmMaxPages ∧
      (∀ k, s ≤ k → k < s + count.toNat → bitTest b k = false) ∧ p = s * 4096 ∧
      b' = b.setRange s (s + count.toNat) := by
  obtain ⟨s, hs, hrest⟩ := pmmAllocPagesLoop_some (Collected.nil b 0) h
  exact ⟨s, by omega, hrest⟩

/-! ### First fit -/

/-- The pages `s` to `s + count - 1` exist and are free. -/
def FreeRun (b : Bitmap) (count s : ℕ) : Prop :=
  s + count ≤ pmmMaxPages ∧ ∀ k, s ≤ k → k < s + count → bitTest b k = false

/-- The loop has met no run of `count` free pages: it has collected fewer, and there is none that
starts before these. -/
structure NoneBefore (b : Bitmap) (count i : ℕ) (start : Option ℕ) (found : ℕ) : Prop where
  collected : Collected b i start found
  fewer : found < count
  before : ∀ s < start.getD i, ¬ FreeRun b count s

theorem Collected.length {b : Bitmap} {i : ℕ} {start : Option ℕ} {found : ℕ}
    (hc : Collected b i start found) : start.getD i + found = i := by
  cases start with
  | none => exact congrArg (i + ·) hc
  | some s => exact hc.1

/-- A run that starts in what is collected has the page `i`. -/
theorem NoneBefore.covers {b : Bitmap} {count i s : ℕ} {start : Option ℕ} {found : ℕ}
    (h : NoneBefore b count i start found) (hs : FreeRun b count s) : i < s + count := by
  have hlen := h.collected.length
  have hfewer := h.fewer
  have hle : start.getD i ≤ s := Nat.le_of_not_lt fun hlt => h.before s hlt hs
  omega

/-- A page in use ends every run that starts before it. -/
theorem NoneBefore.skip {b : Bitmap} {count i : ℕ} {start : Option ℕ} {found : ℕ}
    (h : NoneBefore b count i start found) (ht : bitTest b i = true) :
    NoneBefore b count (i + 1) none 0 where
  collected := Collected.nil b (i + 1)
  fewer := Nat.zero_lt_of_lt h.fewer
  before := by
    intro s hlt hs
    have hused := hs.2 i (Nat.le_of_lt_succ hlt) (h.covers hs)
    rw [ht] at hused
    cases hused

theorem NoneBefore.push {b : Bitmap} {count i : ℕ} {start : Option ℕ} {found : ℕ}
    (h : NoneBefore b count i start found) (ht : bitTest b i = false) (hne : found + 1 ≠ count) :
    NoneBefore b count (i + 1) (some (start.getD i)) (found + 1) where
  collected := h.collected.push ht
  fewer := Nat.lt_of_le_of_ne h.fewer hne
  before := h.before

/-- What the loop finds is the first run, and where it finds none there is none. -/
theorem pmmAllocPagesLoop_first {b : Bitmap} {count : ℕ} {n i : ℕ} {start : Option ℕ} {found : ℕ}
    (h : NoneBefore b count i start found) (hend : i + n = pmmMaxPages) :
    (∃ s, FreeRun b count s ∧ (∀ s' < s, ¬ FreeRun b count s') ∧
        pmmAllocPagesLoop b count n i start found =
          some (s * 4096, b.setRange s (s + count))) ∨
      ((∀ s, ¬ FreeRun b count s) ∧ pmmAllocPagesLoop b count n i start found = none) := by
  induction n generalizing i start found with
  | zero =>
      refine .inr ⟨fun s hs => ?_, rfl⟩
      have hlt := h.covers hs
      have hle := hs.1
      omega
  | succ n ih =>
      rw [pmmAllocPagesLoop]
      cases ht : bitTest b i with
      | true => exact ih (h.skip ht) (by omega)
      | false =>
          obtain ⟨hlen, hfree⟩ := h.collected.push ht
          simp only [Bool.not_false, if_true, Nat.cast_inj]
          split
          · rename_i hcount
            have hfit : start.getD i + count ≤ pmmMaxPages := by omega
            have hrun : FreeRun b count (start.getD i) :=
              ⟨hfit, fun k h₁ h₂ => hfree k h₁ (by omega)⟩
            exact .inl ⟨start.getD i, hrun, h.before, by rw [Int.toNat_natCast]⟩
          · rename_i hne
            exact ih (h.push ht hne) (by omega)

/-- Looking for one page is looking for the first. -/
theorem pmmAllocPagesLoop_one (b : Bitmap) (n i : ℕ) :
    pmmAllocPagesLoop b 1 n i none 0 = pmmAllocLoop b n i := by
  induction n generalizing i with
  | zero => rfl
  | succ n ih =>
      rw [pmmAllocPagesLoop, pmmAllocLoop, ih]
      have hset : b.setRange i (i + 1) = bitSet b i := by
        rw [PackedBits.setRange, Nat.add_sub_cancel_left]
        rfl
      simp [hset]

/-- **`pmm_alloc_pages` is exact first fit.**  It returns the first run of free pages and marks just
these, panics exactly if there is none, and for one page does what `pmm_alloc` does. -/
theorem alloc_pages_first_fit (b : Bitmap) (count : ℤ) (hcount : 1 ≤ count) :
    (∀ p b', pmmAllocPages b count = some (p, b') →
        ∃ s, FreeRun b count.toNat s ∧ (∀ s' < s, ¬ FreeRun b count.toNat s') ∧ p = 4096 * s ∧
          ∀ k, bitTest b' k = (bitTest b k || decide (s ≤ k ∧ k < s + count.toNat))) ∧
      (pmmAllocPages b count = none ↔ ∀ s, ¬ FreeRun b count.toNat s) ∧
      pmmAllocPages b 1 = pmmAlloc b := by
  have hnat : ((count.toNat : ℕ) : ℤ) = count := Int.toNat_of_nonneg (by omega)
  have hinit : NoneBefore b count.toNat 0 none 0 :=
    ⟨Collected.nil b 0, by omega, fun s hs => absurd hs (Nat.not_lt_zero s)⟩
  have hfirst := pmmAllocPagesLoop_first hinit (Nat.zero_add _)
  rw [hnat, ← pmmAllocPages] at hfirst
  refine ⟨?_, ?_, pmmAllocPagesLoop_one b _ 0⟩
  · intro p b' h
    rcases hfirst with ⟨s, hs, hmin, hret⟩ | ⟨-, hret⟩
    · rw [hret] at h
      cases h
      refine ⟨s, hs, hmin, Nat.mul_comm s 4096, fun k => ?_⟩
      rw [bitTest, PackedBits.test_setRange, Bool.or_comm]
    · rw [hret] at h
      cases h
  · rcases hfirst with ⟨s, hs, -, hret⟩ | ⟨hnone, hret⟩
    · rw [hret]
      exact iff_of_false (by simp) fun hnone => hnone s hs
    · exact iff_of_true hret hnone

/-- Only the last eight pages are free. -/
theorem alloc_pages_first_fit_at_end :
    ∃ b b' : Bitmap, pmmAllocPages b 8 = some (4096 * 4088, b') := by
  let b : Bitmap := fun k => if k < 511 then 0xFF else 0
  have hused : ∀ k < 4088, bitTest b k = true := by
    intro k hk
    have hbits : ∀ i < 8, (0xFF#8).getLsbD i = true := by decide
    have hbyte : b (k / 8) = 0xFF := if_pos (by omega)
    rw [bitTest, PackedBits.test_eq, hbyte]
    exact hbits (k % 8) (Nat.mod_lt k (by decide))
  have hfree : FreeRun b 8 4088 := by
    refine ⟨by decide, fun k hk _ => ?_⟩
    have hbyte : b (k / 8) = 0 := if_neg (by omega)
    rw [bitTest, PackedBits.test_eq, hbyte]
    exact BitVec.getLsbD_zero
  obtain ⟨hsome, hnone, -⟩ := alloc_pages_first_fit b 8 (by decide)
  cases h : pmmAllocPages b 8 with
  | none => exact absurd hfree (hnone.mp h 4088)
  | some r =>
      obtain ⟨p, b'⟩ := r
      obtain ⟨s, hs, hmin, rfl, -⟩ := hsome p b' h
      have hle : s ≤ 4088 := Nat.le_of_not_lt fun hlt => hmin 4088 hlt hfree
      have hge : ¬ s < 4088 := by
        intro hlt
        have hfirst := hs.2 s (Nat.le_refl s) (by omega)
        rw [hused s hlt] at hfirst
        cases hfirst
      obtain rfl : s = 4088 := Nat.le_antisymm hle (Nat.not_lt.mp hge)
      exact ⟨b, b', h⟩

/-! ### The pool of pages -/

/-- The page at `p` is free. -/
def PageFree (b : Bitmap) (p : ℕ) : Prop :=
  p % 4096 = 0 ∧ p / 4096 < pmmMaxPages ∧ bitTest b (p / 4096) = false

/-- `pmm_alloc` as a pool of blocks. -/
def pagePool : Pool Bitmap ℕ where
  take := pmmAlloc
  Free := PageFree
  free_of_take h := by
    obtain ⟨k, hk, ht, rfl, -⟩ := pmmAlloc_some h
    exact ⟨by omega, by simpa using hk, by simpa using ht⟩
  free_take_iff {s s' p q} h := by
    obtain ⟨k, hk, ht, rfl, rfl⟩ := pmmAlloc_some h
    simp only [PageFree, bitTest, bitSet, PackedBits.test_set, Bool.or_eq_false_iff,
      decide_eq_false_iff_not]
    constructor
    · rintro ⟨h₁, h₂, h₃, h₄⟩
      exact ⟨⟨h₁, h₂, h₄⟩, fun e => h₃ (by omega)⟩
    · rintro ⟨⟨h₁, h₂, h₃⟩, h₄⟩
      exact ⟨h₁, h₂, fun e => h₄ (by omega), h₃⟩

theorem pmmAlloc_of_free {b : Bitmap} {q : ℕ} (hq : PageFree b q) :
    ∃ p b', pmmAlloc b = some (p, b') := by
  obtain ⟨-, hlt, hfree⟩ := hq
  cases h : pmmAlloc b with
  | none =>
      rw [pmmAllocLoop_none h _ (Nat.zero_le _) (by omega)] at hfree
      cases hfree
  | some x => exact ⟨x.1, x.2, rfl⟩

/-- `pmm_alloc` returns as often as there are free pages. -/
theorem pagePool_has : ∀ {n : ℕ} {b : Bitmap} {l : List ℕ}, l.Nodup →
    (∀ p ∈ l, PageFree b p) → n ≤ l.length → pagePool.Has n b
  | 0, _, _, _, _, _ => trivial
  | n + 1, b, l, hnd, hfree, hn => by
      obtain ⟨q, hq⟩ := List.exists_mem_of_length_pos (Nat.lt_of_lt_of_le n.succ_pos hn)
      obtain ⟨p, b', htake⟩ := pmmAlloc_of_free (hfree q hq)
      refine ⟨p, b', htake, pagePool_has (l := l.erase p) (hnd.erase p) (fun r hr => ?_) ?_⟩
      · obtain ⟨hne, hr⟩ := (hnd.mem_erase_iff).mp hr
        exact (pagePool.free_take_iff htake).mpr ⟨hfree r hr, hne⟩
      · rw [List.length_erase]
        split <;> omega

/-- The first megabyte is in use, as `pmm_init` leaves it (`pmmInit_low`). -/
def LowReserved (b : Bitmap) : Prop := ∀ i < 0x100, bitTest b i = true

theorem LowReserved.page {b : Bitmap} (hb : LowReserved b) {p : ℕ} (h : PageFree b p) :
    0x100000 ≤ p ∧ p < 0x1000000 := by
  obtain ⟨h₁, h₂, h₃⟩ := h
  have : ¬ p / 4096 < 0x100 := fun hlt => by rw [hb _ hlt] at h₃; cases h₃
  simp only [pmmMaxPages] at h₂
  omega

end ZeptoOS
