import Mathlib.Data.Set.Insert
import ZeptoOS.Lib.Run
import ZeptoOS.Mm.PmmInit

/-!
# Mm — Ownership

Who owns a physical page.  A run of `pmm_alloc`, `pmm_alloc_pages` and `pmm_free` is labelled
with what each call returned or was given, and carries the set of pages handed out as ghost
state; a page may be freed while it is handed out, and only then.

`Ledger` is the invariant: a bit is clear exactly when the page was free to begin with and is not
handed out.  `Ledger.step` keeps it, and says of the pages a call returns that they were free to
begin with and in nobody's hands; `pmm_ownership` is the statement about whole runs from a bitmap
that `pmm_init` left.
-/

namespace ZeptoOS
open Lib

/-- A call that returned: with the address it returned, or was given. -/
inductive PmmEvent where
  | alloc (p : ℕ)
  | allocPages (n : ℤ) (p : ℕ)
  | free (p : ℕ)

/-- The pages a call hands out. -/
def PmmEvent.pages : PmmEvent → Set ℕ
  | .alloc p => {p}
  | .allocPages n p => {q | ∃ k : ℕ, (k : ℤ) < n ∧ q = p + 4096 * k}
  | .free _ => ∅

/-- The bitmap, and the pages handed out. -/
structure PmmState where
  bitmap : Bitmap
  out : Set ℕ

/-- A call from `s` that returns in `s'`. -/
def PmmStep (s : PmmState) (e : PmmEvent) (s' : PmmState) : Prop :=
  match e with
  | .alloc p => pmmAlloc s.bitmap = some (p, s'.bitmap) ∧ s'.out = s.out ∪ e.pages
  | .allocPages n p =>
      1 ≤ n ∧ pmmAllocPages s.bitmap n = some (p, s'.bitmap) ∧ s'.out = s.out ∪ e.pages
  | .free p => p ∈ s.out ∧ s'.bitmap = pmmFree s.bitmap p ∧ s'.out = s.out \ {p}

/-- A bit is clear exactly when its page was free in `b₀` and is not handed out; and only pages
free in `b₀` are handed out. -/
structure Ledger (b₀ : Bitmap) (s : PmmState) : Prop where
  bits : ∀ i < pmmMaxPages,
    bitTest s.bitmap i = false ↔ bitTest b₀ i = false ∧ i * 4096 ∉ s.out
  out : ∀ p ∈ s.out, PageFree b₀ p

theorem Ledger.init (b₀ : Bitmap) : Ledger b₀ ⟨b₀, ∅⟩ :=
  ⟨fun _ _ => by simp, fun _ hp => hp.elim⟩

/-- A free page was free to begin with and is in nobody's hands. -/
theorem Ledger.free {b₀ : Bitmap} {s : PmmState} (L : Ledger b₀ s) {i : ℕ}
    (hi : i < pmmMaxPages) (hfree : bitTest s.bitmap i = false) :
    PageFree b₀ (i * 4096) ∧ i * 4096 ∉ s.out := by
  obtain ⟨h₀, hout⟩ := (L.bits i hi).mp hfree
  exact ⟨⟨by omega, by simpa using hi, by simpa using h₀⟩, hout⟩

/-- Handing out the pages `[k, k + n)`, free ones, keeps the ledger. -/
theorem Ledger.take {b₀ : Bitmap} {s s' : PmmState} (L : Ledger b₀ s) {k n : ℕ}
    (hn : k + n ≤ pmmMaxPages) (hfree : ∀ i, k ≤ i → i < k + n → bitTest s.bitmap i = false)
    (hb : ∀ i, bitTest s'.bitmap i = (decide (k ≤ i ∧ i < k + n) || bitTest s.bitmap i))
    (hout : s'.out = s.out ∪ {q | ∃ i, k ≤ i ∧ i < k + n ∧ q = i * 4096}) : Ledger b₀ s' where
  bits i hi := by
    rw [hb, hout, Bool.or_eq_false_iff, L.bits i hi, decide_eq_false_iff_not]
    constructor
    · rintro ⟨h₁, h₂, h₃⟩
      refine ⟨h₂, fun h => h.elim h₃ ?_⟩
      rintro ⟨j, hj₁, hj₂, e⟩
      exact h₁ ⟨by omega, by omega⟩
    · rintro ⟨h₁, h₂⟩
      exact ⟨fun h => h₂ (.inr ⟨i, h.1, h.2, rfl⟩), h₁, fun h => h₂ (.inl h)⟩
  out p hp := by
    rw [hout] at hp
    rcases hp with hp | ⟨i, h₁, h₂, rfl⟩
    · exact L.out p hp
    · exact (L.free (by omega) (hfree i h₁ h₂)).1

theorem pages_allocPages {n : ℤ} {k : ℕ} :
    (PmmEvent.allocPages n (k * 4096)).pages =
      {q | ∃ i, k ≤ i ∧ i < k + n.toNat ∧ q = i * 4096} := by
  ext q
  constructor
  · rintro ⟨i, hi, rfl⟩
    exact ⟨k + i, by omega, by omega, by omega⟩
  · rintro ⟨i, h₁, h₂, rfl⟩
    exact ⟨i - k, by omega, by omega⟩

theorem pages_alloc {k : ℕ} :
    (PmmEvent.alloc (k * 4096)).pages = {q | ∃ i, k ≤ i ∧ i < k + 1 ∧ q = i * 4096} := by
  ext q
  constructor
  · rintro rfl
    exact ⟨k, by omega, by omega, rfl⟩
  · rintro ⟨i, h₁, h₂, rfl⟩
    exact congrArg (· * 4096) (show i = k by omega)

/-- **One call** keeps the ledger, and hands out only pages that were free to begin with and are
in nobody's hands. -/
theorem Ledger.step {b₀ : Bitmap} {s s' : PmmState} {e : PmmEvent} (L : Ledger b₀ s)
    (h : PmmStep s e s') :
    Ledger b₀ s' ∧ ∀ p ∈ e.pages, PageFree b₀ p ∧ p ∉ s.out := by
  cases e with
  | alloc p =>
      obtain ⟨ha, hout⟩ := h
      obtain ⟨k, hk, hfree, rfl, hb⟩ := pmmAlloc_some ha
      refine ⟨L.take (k := k) (n := 1) (by omega) (fun i h₁ h₂ => ?_) (fun i => ?_)
        (by rw [hout, pages_alloc]), fun p hp => ?_⟩
      · exact (show i = k by omega) ▸ hfree
      · rw [hb, bitTest, bitSet, PackedBits.test_set]
        congr 2
        apply propext
        omega
      · rw [show p = k * 4096 from hp]
        exact L.free hk hfree
  | allocPages n p =>
      obtain ⟨-, ha, hout⟩ := h
      obtain ⟨k, hk, hfree, rfl, hb⟩ := pmmAllocPages_some ha
      refine ⟨L.take hk hfree (fun i => by rw [hb, bitTest, PackedBits.test_setRange])
        (by rw [hout, pages_allocPages]), fun p hp => ?_⟩
      rw [pages_allocPages] at hp
      obtain ⟨i, h₁, h₂, rfl⟩ := hp
      exact L.free (by omega) (hfree i h₁ h₂)
  | free p =>
      obtain ⟨hp, hb, hout⟩ := h
      obtain ⟨hal, hlt, h₀⟩ := L.out p hp
      have hpage : p / 4096 % 2 ^ 32 = p / 4096 := by
        simp only [pmmMaxPages] at hlt
        omega
      refine ⟨⟨fun i hi => ?_, fun q hq => ?_⟩, fun q hq => hq.elim⟩
      · have hfree : bitTest s'.bitmap i = false ↔ i = p / 4096 ∨ bitTest s.bitmap i = false := by
          rw [hb, pmmFree, hpage, if_pos hlt, bitTest, PackedBits.test_clear, Bool.and_eq_false_iff,
            Bool.not_eq_false', decide_eq_true_iff]
        rw [hfree, hout, L.bits i hi, Set.mem_sdiff, Set.mem_singleton_iff]
        constructor
        · rintro (rfl | ⟨h₁, h₂⟩)
          · exact ⟨h₀, fun h => h.2 (by omega)⟩
          · exact ⟨h₁, fun h => h₂ h.1⟩
        · rintro ⟨h₁, h₂⟩
          by_cases e : i = p / 4096
          · exact .inl e
          · exact .inr ⟨h₁, fun h => h₂ ⟨h, by omega⟩⟩
      · rw [hout] at hq
        exact L.out q hq.1

theorem Ledger.run {b₀ : Bitmap} {s s' : PmmState} {es : List PmmEvent}
    (h : Run PmmStep s es s') (L : Ledger b₀ s) : Ledger b₀ s' :=
  h.inv (P := fun _ => True) (fun _ L hs => (L.step hs).1) (fun _ _ => trivial) L

/-- What the calls of a run hand out was free to begin with. -/
theorem Ledger.run_pages {b₀ : Bitmap} {s s' : PmmState} {es : List PmmEvent}
    (h : Run PmmStep s es s') (L : Ledger b₀ s) : ∀ e ∈ es, ∀ p ∈ e.pages, PageFree b₀ p := by
  induction h with
  | refl => exact fun e he => absurd he List.not_mem_nil
  | more h _ ih =>
      obtain ⟨L', hpages⟩ := L.step h
      intro e he p hp
      rcases List.mem_cons.mp he with rfl | he
      · exact (hpages p hp).1
      · exact ih L' e he p hp

/-- **Every free page is returned** by some sequence of `pmm_alloc` calls: each takes the lowest
free page, and the induction is on the pages below that may still be free. -/
theorem pmmAlloc_reaches {k : ℕ} (hk : k < pmmMaxPages) :
    ∀ (n : ℕ) {s : PmmState}, bitTest s.bitmap k = false → n ≤ k →
      (∀ j < k - n, bitTest s.bitmap j = true) →
      ∃ es s', Run PmmStep s es s' ∧ (∀ e ∈ es, ∃ q, e = .alloc q) ∧ .alloc (k * 4096) ∈ es
  | 0, s, hfree, _, hused => by
      refine ⟨[.alloc (k * 4096)], ⟨bitSet s.bitmap k, s.out ∪ (PmmEvent.alloc (k * 4096)).pages⟩,
        .one ⟨pmmAlloc_eq hk hfree hused, rfl⟩, fun e he => ⟨k * 4096, ?_⟩,
        List.mem_singleton_self _⟩
      exact List.mem_singleton.mp he
  | n + 1, s, hfree, hn, hused => by
      generalize hi : k - (n + 1) = i at hused
      by_cases hbit : bitTest s.bitmap i = true
      · refine pmmAlloc_reaches hk n hfree (by omega) fun j hj => ?_
        by_cases e : j = i
        · exact e ▸ hbit
        · exact hused j (by omega)
      · have hset : ∀ j, bitTest (bitSet s.bitmap i) j = (decide (j = i) || bitTest s.bitmap j) :=
          fun j => PackedBits.test_set ..
        have hstep : PmmStep s (.alloc (i * 4096))
            ⟨bitSet s.bitmap i, s.out ∪ (PmmEvent.alloc (i * 4096)).pages⟩ :=
          ⟨pmmAlloc_eq (by omega) (by simpa using hbit) hused, rfl⟩
        obtain ⟨es, s', hrun, halloc, hmem⟩ := pmmAlloc_reaches hk n
          (s := ⟨bitSet s.bitmap i, s.out ∪ (PmmEvent.alloc (i * 4096)).pages⟩)
          (by rw [hset, hfree, Bool.or_false, decide_eq_false_iff_not]; omega) (by omega)
          fun j hj => by
            rw [hset]
            by_cases e : j = i
            · simp [e]
            · rw [hused j (by omega), Bool.or_true]
        refine ⟨_, s', .more hstep hrun, fun e he => ?_, List.mem_cons_of_mem _ hmem⟩
        rcases List.mem_cons.mp he with rfl | he
        · exact ⟨_, rfl⟩
        · exact halloc e he

/-- A page handed out stays in hands until it is freed. -/
theorem out_of_not_freed {s s' : PmmState} {es : List PmmEvent} (h : Run PmmStep s es s') {p : ℕ}
    (hp : p ∈ s.out) (hfree : .free p ∉ es) : p ∈ s'.out := by
  induction h with
  | refl => exact hp
  | @more s s₁ s' e es h _ ih =>
      simp only [List.mem_cons, not_or] at hfree
      refine ih ?_ hfree.2
      cases e with
      | alloc q => rw [h.2]; exact .inl hp
      | allocPages n q => rw [h.2.2]; exact .inl hp
      | free q =>
          rw [h.2.2]
          exact ⟨hp, fun e => hfree.1 (by rw [Set.mem_singleton_iff.mp e])⟩

/-- What a call hands out is in hands after it. -/
theorem pages_subset_out {s s' : PmmState} {e : PmmEvent} (h : PmmStep s e s') :
    e.pages ⊆ s'.out := by
  cases e with
  | alloc q => rw [h.2]; exact Set.subset_union_right
  | allocPages n q => rw [h.2.2]; exact Set.subset_union_right
  | free q => exact Set.empty_subset _

/-- Between two calls that hand out `p` there is one that frees it. -/
theorem freed_between {b₀ : Bitmap} {s s' : PmmState} {pre mid post : List PmmEvent}
    {e e' : PmmEvent} (L : Ledger b₀ s) (h : Run PmmStep s (pre ++ e :: mid ++ e' :: post) s')
    {p : ℕ} (hp : p ∈ e.pages) (hp' : p ∈ e'.pages) : .free p ∈ mid := by
  obtain ⟨s₃, h₁₃, h₃⟩ := h.split
  obtain ⟨s₁, h₁, h₁₃⟩ := h₁₃.split
  cases h₁₃ with
  | more he h₂ =>
      cases h₃ with
      | more he' _ =>
          by_contra hfree
          have hout := out_of_not_freed h₂ (pages_subset_out he hp) hfree
          have L₃ : Ledger b₀ s₃ := Ledger.run h₂ ((Ledger.run h₁ L).step he).1
          exact ((L₃.step he').2 p hp').2 hout

/-- The bytes of the page at `p` avoid module `m`. -/
def AvoidsModule (t : Target) (mem : Bytes) (mb : MultibootInfo) (p m : ℕ) : Prop :=
  ∀ a, p ≤ a → a < p + 4096 → ¬ (modStart t mem mb m ≤ a ∧ a < modEnd t mem mb m)

/-- A page that `pmm_init` left free is off the first megabyte, the kernel and the modules. -/
theorem pmmInit_free {t : Target} {mem : Bytes} {k : KernelImage} {mb : MultibootInfo}
    {fuel : ℕ} {b₀ : Bitmap} (hinit : pmmInit t mem k mb fuel = some b₀)
    (hmods : mb.flags.getLsbD 3 = true)
    (hend : ∀ m < mb.modsCount.toNat, modEnd t mem mb m ≤ 0xFFFFF000) {p : ℕ}
    (hp : PageFree b₀ p) :
    0x100000 ≤ p ∧ p < 0x1000000 ∧ k.kernelEnd ≤ p ∧
      ∀ m < mb.modsCount.toNat, AvoidsModule t mem mb p m := by
  obtain ⟨hlo, hhi⟩ := (pmmInit_low hinit).page hp
  obtain ⟨hal, hlt, hfree⟩ := hp
  have hres := pmmInit_not_reserved hinit hlt hfree
  refine ⟨hlo, hhi, ?_, fun m hm a h₁ h₂ h => ?_⟩
  · by_contra hk
    exact hres (.inr (.inl ⟨by omega, lt_kernelEndPage.mpr (by omega)⟩))
  · have := hend m hm
    exact hres (.inr (.inr ⟨hmods, m, hm, by omega, by omega⟩))

/-- **Physical page ownership.**  From a bitmap that `pmm_init` left, along every run of calls:
a bit is clear exactly when its page was free to begin with and is not handed out; every page a
call returns is aligned, not null, below 16 MiB, was free to begin with, and lies off the first
megabyte, the kernel and the boot modules; and between two calls that return one page there is
one that frees it. -/
theorem pmm_ownership (t : Target) (mem : Bytes) (k : KernelImage) (mb : MultibootInfo)
    (fuel : ℕ) (b₀ : Bitmap) (hinit : pmmInit t mem k mb fuel = some b₀)
    (hmods : mb.flags.getLsbD 3 = true)
    (hend : ∀ m < mb.modsCount.toNat, modEnd t mem mb m ≤ 0xFFFFF000)
    (es : List PmmEvent) (s : PmmState) (hrun : Run PmmStep ⟨b₀, ∅⟩ es s) :
    (∀ i < pmmMaxPages, bitTest s.bitmap i = false ↔ bitTest b₀ i = false ∧ i * 4096 ∉ s.out) ∧
    (∀ e s', PmmStep s e s' → ∀ p ∈ e.pages,
      p % 4096 = 0 ∧ p ≠ 0 ∧ p < 0x1000000 ∧ bitTest b₀ (p / 4096) = false ∧ p ∉ s.out ∧
      0x100000 ≤ p ∧ k.kernelEnd ≤ p ∧
      ∀ m < mb.modsCount.toNat, AvoidsModule t mem mb p m) ∧
    (∀ pre mid post e e' p, es = pre ++ e :: mid ++ e' :: post → p ∈ e.pages → p ∈ e'.pages →
      .free p ∈ mid) := by
  have L : Ledger b₀ s := Ledger.run hrun (.init b₀)
  refine ⟨L.bits, fun e s' hs p hp => ?_, fun pre mid post e e' p hes hp hp' => ?_⟩
  · obtain ⟨hfree, hout⟩ := (L.step hs).2 p hp
    obtain ⟨hlo, hhi, hk, hm⟩ := pmmInit_free hinit hmods hend hfree
    exact ⟨hfree.1, by omega, hhi, hfree.2.2, hout, hlo, hk, hm⟩
  · subst hes
    exact freed_between (.init b₀) hrun hp hp'

/-- A map of one usable entry, the two pages at 2 MiB. -/
def twoPageMap : Bytes := fun a =>
  if a = 0x9000 then 20 else if a = 0x9006 then 0x20 else if a = 0x900D then 0x20
  else if a = 0x9014 then 1 else 0

/-- `twoPageMap` announced, with one empty module. -/
def twoPageInfo : MultibootInfo := ⟨0x48, 1, 0xA000, 24, 0x9000⟩

/-- The bitmap that `pmm_init` leaves from `twoPageMap`. -/
def twoPageBitmap : Bitmap :=
  reserve .i386 twoPageMap smallKernel twoPageInfo (freeEntry .i386 twoPageMap allUsed 0x9000)

theorem twoPageBitmap_free {i : ℕ} (hi : i < pmmMaxPages) :
    bitTest twoPageBitmap i = false ↔ 512 ≤ i ∧ i < 514 := by
  have hentry : freeEntry .i386 twoPageMap allUsed 0x9000 = allUsed.clearRange 512 514 := rfl
  rw [twoPageBitmap, test_reserve hi, hentry, bitTest, PackedBits.test_clearRange,
    show allUsed.test i = true from test_allUsed i, Bool.and_true, Bool.not_eq_false',
    decide_eq_true_iff]
  refine ⟨fun h => h.1, fun h => ⟨h, ?_⟩⟩
  rintro (h' | h' | ⟨-, m, hm, h₁, h₂⟩)
  · omega
  · have := lt_kernelEndPage.mp h'.2
    simp only [smallKernel] at this
    omega
  · obtain rfl : m = 0 := by simpa [twoPageInfo] using hm
    have : modEnd .i386 twoPageMap twoPageInfo 0 = 0 := rfl
    rw [this] at h₂
    omega

/-- `pmm_alloc` takes the lower of the two pages that is not handed out. -/
theorem twoPage_alloc {s : PmmState} (L : Ledger twoPageBitmap s) {k : ℕ} (hk : 512 ≤ k ∧ k < 514)
    (hout : k * 4096 ∉ s.out) (hused : ∀ j, 512 ≤ j → j < k → j * 4096 ∈ s.out) :
    ∃ s', PmmStep s (.alloc (k * 4096)) s' ∧ s'.out = s.out ∪ {k * 4096} := by
  have hmax : k < pmmMaxPages := lt_trans hk.2 (by decide)
  have hfree : bitTest s.bitmap k = false :=
    (L.bits k hmax).mpr ⟨(twoPageBitmap_free hmax).mpr hk, hout⟩
  have hbelow : ∀ j < k, bitTest s.bitmap j = true := by
    intro j hj
    by_contra h
    have hjmax : j < pmmMaxPages := hj.trans hmax
    obtain ⟨hfree₀, hj_out⟩ := (L.bits j hjmax).mp (by simpa using h)
    exact hj_out (hused j ((twoPageBitmap_free hjmax).mp hfree₀).1 hj)
  exact ⟨⟨bitSet s.bitmap k, s.out ∪ {k * 4096}⟩, ⟨pmmAlloc_eq hmax hfree hbelow, rfl⟩, rfl⟩

/-- Both pages are handed out and the first is freed: it is the next to be handed out, and the
other is still in hands. -/
theorem pmm_ownership_freed_page :
    ∃ s s', Run PmmStep ⟨twoPageBitmap, ∅⟩ [.alloc 0x200000, .alloc 0x201000, .free 0x200000] s ∧
      PmmStep s (.alloc 0x200000) s' ∧ bitTest s.bitmap 513 = true ∧ 0x200000 ∉ s.out := by
  have L₀ : Ledger twoPageBitmap ⟨twoPageBitmap, ∅⟩ := .init _
  obtain ⟨s₁, h₁, hout₁⟩ := twoPage_alloc (k := 512) L₀ (by decide) (Set.notMem_empty _)
    fun j h₁ h₂ => absurd h₂ (Nat.not_lt.mpr h₁)
  have L₁ := (L₀.step h₁).1
  obtain ⟨s₂, h₂, hout₂⟩ := twoPage_alloc (k := 513) L₁ (by decide) (by rw [hout₁]; simp)
    fun j h₁ h₂ => by
      obtain rfl : j = 512 := by omega
      rw [hout₁]
      exact .inr rfl
  obtain ⟨s₃, h₃⟩ : ∃ s, PmmStep s₂ (.free 0x200000) s :=
    ⟨⟨_, _⟩, by rw [hout₂, hout₁]; exact .inl (.inr rfl), rfl, rfl⟩
  have L₃ := (((L₁.step h₂).1).step h₃).1
  have hout₃ : s₃.out = {0x201000} := by
    rw [h₃.2.2, hout₂, hout₁]
    simp
  obtain ⟨s₄, h₄, -⟩ := twoPage_alloc (k := 512) L₃ (by decide) (by rw [hout₃]; simp)
    fun j h₁ h₂ => absurd h₂ (Nat.not_lt.mpr h₁)
  have hrun : Run PmmStep ⟨twoPageBitmap, ∅⟩
      [.alloc 0x200000, .alloc 0x201000, .free 0x200000] s₃ := .more h₁ (.more h₂ (.one h₃))
  obtain ⟨hbits, hpages, -⟩ := pmm_ownership .i386 twoPageMap smallKernel twoPageInfo 2
    twoPageBitmap rfl rfl (by decide) _ _ hrun
  obtain ⟨-, -, -, -, hfree, -⟩ := hpages _ _ h₄ 0x200000 rfl
  refine ⟨s₃, s₄, hrun, h₄, ?_, hfree⟩
  rw [← Bool.not_eq_false, hbits 513 (by decide), hout₃]
  simp

end ZeptoOS
