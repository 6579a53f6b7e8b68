import ZeptoOS.Lib.Tlb
import ZeptoOS.Paging.Targets

/-!
# Paging — Tlb

The paging functions with what they do to the processor's translation cache.  `vmm_switch_to` loads
`cr3`, which empties it.  The `vmm_map_page` and `vmm_unmap_page` of x86_64 end with `invlpg`, those
of i386 do not.

So on x86_64 no translation is ever stale (`X64.coherent`).  On i386 a run keeps the cache coherent
exactly if no call in it replaces an entry by which the current space translates
(`I386.keeps_iff`); `stale_after_unmap` is a page that can still be reached after it was unmapped.

An entry of the cache is all that the walk read, so that the rights are in it as well as the frame.
-/

namespace ZeptoOS
open Lib

/-- A call of a paging function, or of `vmm_switch_to`. -/
inductive PagingCall (w : ℕ) where
  | call (c : VmmCall w)
  | switchTo (pd : ℕ)

/-- The spaces, and `cr3`. -/
structure PagingMachine (w : ℕ) where
  spaces : Spaces ℕ (BitVec w) ℕ Bitmap
  cr3 : ℕ

/-- A call on the machine, where `step` is what the functions do to the spaces. -/
def PagingMachine.Step {w : ℕ}
    (step : Spaces ℕ (BitVec w) ℕ Bitmap → VmmCall w → Spaces ℕ (BitVec w) ℕ Bitmap → Prop)
    (s : PagingMachine w) : PagingCall w → PagingMachine w → Prop
  | .call c, s' => step s.spaces c s'.spaces ∧ s'.cr3 = s.cr3
  | .switchTo pd, s' => pd ∈ s.spaces.roots ∧ s' = { s with cr3 := pd }

namespace X64

/-! ### The x86_64 target -/

/-- The address of the `invlpg` that a call ends with. -/
def invlpg (s : System) : VmmCall 64 → Option Word
  | .create => none
  | .map pd virt _ _ =>
      (pageTable s.heap pd virt true).bind fun (table, _) => if table = 0 then none else some virt
  | .unmap pd virt =>
      (pageTable s.heap pd virt false).bind fun (table, _) => if table = 0 then none else some virt

/-- The processor's walk, and what a call drops of its cache. -/
def mmu : Mmu (PagingMachine 64) (PagingCall 64) Word (List Word) where
  step := PagingMachine.Step Step
  walk s v :=
    if Canonical v then fmt.trail s.spaces.heap.mem s.cr3 (path v) (ptIndex v) else none
  Drops s op v :=
    match op with
    | .call c => ∃ virt, invlpg s.spaces c = some virt ∧ SamePage virt v
    | .switchTo _ => True

section Low

variable {k : KernelImage} {t : BootTables k} {c c' : ℕ → Option (List (Fin 512) × ℕ)}
  {s s' : System}

/-- The first 1 GiB is mapped in every space by the entries of the boot page directory. -/
structure LowMapped (t : BootTables k) (c : ℕ → Option (List (Fin 512) × ℕ)) (s : System) :
    Prop where
  root : ∀ r ∈ s.roots, fmt.entry s.heap.mem r 0 = fmt.link t.pdpt
  pdpt : fmt.entry s.heap.mem t.pdpt 0 = fmt.link t.pd
  pd : ∀ i, fmt.entry s.heap.mem t.pd i = BootTables.large i
  pdpt_typed : c t.pdpt = some ([0], t.pml4)
  pd_typed : c t.pd = some ([0, 0], t.pml4)

theorem lowMapped_boot {mem : Store ℕ Word} {b : Bitmap} (h0 : t.BssZero mem) :
    LowMapped t (bootTyping t) (t.boot mem b) where
  root r hr := by
    obtain rfl : r = t.pml4 := by simpa [Spaces.roots, BootTables.boot] using hr
    rw [BootTables.boot, setup_pml4 h0, if_pos rfl]
  pdpt := by rw [BootTables.boot, setup_pdpt h0, if_pos rfl]
  pd i := by rw [BootTables.boot, setup_pd]
  pdpt_typed := bootTyping_pdpt
  pd_typed := bootTyping_pd

theorem large_present : ∀ i : Fin 512, fmt.present (BootTables.large i) = true ∧
    fmt.large (BootTables.large i) = true := by
  decide +kernel

/-- **No call changes that.** -/
theorem LowMapped.step (hL : LowMapped t c s) (hI : Inv fmt pagePool 4 Large c s)
    {call : VmmCall 64} (hp : Plain call) (h : Step s call s') :
    ∃ c', Inv fmt pagePool 4 Large c' s' ∧ Kept fmt 4 Large c s c' s' ∧ LowMapped t c' s' := by
  rw [Step, step_eq] at h
  have hpresent : ∀ p, p = t.pdpt ∨ p = t.pd → fmt.present (fmt.link p) = true := fun p hp =>
    fmt.present_link (BootTables.valid (t := t) (.inr hp))
  -- present entries of inner tables stay, and a new root copies those of the base root
  have hroots : ∃ c', Inv fmt pagePool 4 Large c' s' ∧ Kept fmt 4 Large c s c' s' ∧
      ∀ r ∈ s'.roots, fmt.entry s'.heap.mem r 0 = fmt.link t.pdpt := by
    have hold : ∀ {c'}, Kept fmt 4 Large c s c' s' → ∀ r ∈ s.roots,
        fmt.entry s'.heap.mem r 0 = fmt.link t.pdpt := fun K r hr => by
      have he := hL.root r hr
      exact (K.entry 0 (hI.root r hr) (by simp) (he ▸ hpresent _ (.inl rfl))).trans he
    cases call with
    | create =>
        obtain ⟨c', q, h', rfl, hC, hI', K⟩ := hI.create_inv h
        refine ⟨c', hI', K, fun r hr => ?_⟩
        rcases List.mem_cons.mp hr with rfl | hr
        · exact hold K _ List.mem_cons_self
        · rcases List.mem_cons.mp hr with rfl | hr
          · exact (hC.same 0).trans (hL.root _ List.mem_cons_self)
          · exact hold K r (List.mem_cons_of_mem _ hr)
    | map pd virt phys flags =>
        obtain ⟨c', h', -, rfl, hw⟩ := hI.map hp.fits h
        obtain ⟨hI', K⟩ := hI.write hw
        exact ⟨c', hI', K, hold K⟩
    | unmap pd virt =>
        obtain ⟨h', -, rfl, hw⟩ := hI.unmap hp.fits h
        obtain ⟨hI', K⟩ := hI.write hw
        exact ⟨c, hI', K, hold K⟩
  obtain ⟨c', hI', K, hroot⟩ := hroots
  refine ⟨c', hI', K, hroot, ?_, fun i => ?_, K.grows hL.pdpt_typed, K.grows hL.pd_typed⟩
  · exact (K.entry 0 hL.pdpt_typed (by simp) (hL.pdpt ▸ hpresent _ (.inr rfl))).trans hL.pdpt
  · have he := hL.pd i
    exact (K.entry i hL.pd_typed (by simp) (he ▸ (large_present i).1)).trans he

/-- What a walk reads there. -/
theorem LowMapped.trail (hL : LowMapped t c s) {r : ℕ} (hr : r ∈ s.roots) {v : Word}
    (h₁ : pml4Index v = 0) (h₂ : pdptIndex v = 0) :
    fmt.trail s.heap.mem r (path v) (ptIndex v) =
      some [fmt.link t.pdpt, fmt.link t.pd, BootTables.large (pdIndex v)] := by
  have hpdpt := BootTables.valid (t := t) (.inr (.inl rfl))
  have hpd := BootTables.valid (t := t) (.inr (.inr rfl))
  obtain ⟨hpresent, hlarge⟩ := large_present (pdIndex v)
  rw [path, h₁, h₂, Format.trail, hL.root r hr, if_pos (fmt.present_link hpdpt),
    fmt.large_link hpdpt, if_neg Bool.false_ne_true, fmt.target_link hpdpt, Format.trail, hL.pdpt,
    if_pos (fmt.present_link hpd), fmt.large_link hpd, if_neg Bool.false_ne_true,
    fmt.target_link hpd, Format.trail, hL.pd, if_pos hpresent, if_pos hlarge]
  rfl

end Low

/-- What a run of calls keeps. -/
def Managing {k : KernelImage} (t : BootTables k) (s : PagingMachine 64) : Prop :=
  ∃ c, Inv fmt pagePool 4 Large c s.spaces ∧ LowMapped t c s.spaces ∧ s.cr3 ∈ s.spaces.roots

/-- The address of the call is canonical, so that `invlpg` is about its page, and no entry of 2 MiB
covers it. -/
def PlainCall : PagingCall 64 → Prop
  | .call .create | .switchTo _ => True
  | .call (.map _ virt _ _) | .call (.unmap _ virt) => AboveLarge virt

theorem PlainCall.plain {call : VmmCall 64} (h : PlainCall (.call call)) : Plain call := by
  cases call with
  | create => trivial
  | map | unmap => exact AboveLarge.outside h

/-- An address goes through the boot page directory, or through tables only. -/
theorem low_or_managed (virt : Word) (base : ℕ) :
    pml4Index virt = 0 ∧ pdptIndex virt = 0 ∨
      (⟨4, base, Large⟩ : Plan (Fin 512) ℕ).Managed [] (path virt) := by
  by_cases hlow : pml4Index virt = 0 ∧ pdptIndex virt = 0
  · exact .inl hlow
  · exact .inr (OutsideLarge.managed hlow)

section Invlpg

variable {c : ℕ → Option (List (Fin 512) × ℕ)} {s s' : System} {pd : ℕ} {virt : Word}

/-- A mapping ends with `invlpg`. -/
theorem map_invlpg {phys flags : Word} (hI : Inv fmt pagePool 4 Large c s)
    (hv : OutsideLarge virt) (h : Step s (.map pd virt phys flags) s') :
    invlpg s (.map pd virt phys flags) = some virt := by
  rw [Step, step] at h
  split at h
  · rename_i hpd
    obtain ⟨h', hmap, -⟩ := Option.bind_eq_some_iff.mp h
    rw [vmmMapPage_eq, Format.mapLeaf] at hmap
    obtain ⟨⟨table, h₁⟩, hd, -⟩ := Option.map_eq_some_iff.mp hmap
    obtain ⟨c', o, D⟩ := hI.typed.descend (hI.root pd hpd) hv.managed
      (by simp [path]) hd
    have htable : table ≠ 0 := fmt.ne_null (D.typed.valid D.table)
    rw [invlpg, pageTable_eq, hd, Option.bind_some]
    exact if_neg htable
  · cases h

/-- An unmapping ends with `invlpg`, or changes nothing. -/
theorem unmap_invlpg (hI : Inv fmt pagePool 4 Large c s) (hv : OutsideLarge virt)
    (h : Step s (.unmap pd virt) s') :
    invlpg s (.unmap pd virt) = some virt ∨ s'.heap = s.heap := by
  rw [Step, step] at h
  split at h
  · rename_i hpd
    have hm : (⟨4, s.base, Large⟩ : Plan (Fin 512) ℕ).Managed [] (path virt) :=
      hv.managed
    have htable : pageTable s.heap pd virt false =
        some ((fmt.walk s.heap.mem pd (path virt)).getD fmt.null, s.heap) := by
      rw [pageTable_eq, hI.typed.descend_false (hI.root pd hpd) hm (by simp [path])]
    rw [vmmUnmapPage, htable] at h
    rw [invlpg, htable, Option.bind_some]
    dsimp only at h ⊢
    split
    · rename_i hnull
      right
      simp only [Option.bind_eq_bind, Option.bind_some, if_pos hnull, Option.some.injEq] at h
      rw [← h]
    · exact .inl rfl
  · cases h

end Invlpg

/-- **Each call** keeps the translations whose entries it does not drop. -/
theorem keeps_step {k : KernelImage} {t : BootTables k} {s s' : PagingMachine 64}
    {op : PagingCall 64} (hp : PlainCall op) (hs : Managing t s) (h : mmu.step s op s') :
    mmu.Keeps s op s' ∧ Managing t s' := by
  obtain ⟨c, hI, hL, hcr3⟩ := hs
  cases op with
  | switchTo pd =>
      obtain ⟨hpd, rfl⟩ := h
      exact ⟨fun v e _ hdrop => absurd trivial hdrop, c, hI, hL, hpd⟩
  | call call =>
      obtain ⟨hstep, hsame⟩ := h
      obtain ⟨c', hI', K, hL'⟩ := hL.step hI hp.plain hstep
      have hcr3' : s'.cr3 ∈ s'.spaces.roots := hsame ▸ K.roots hcr3
      refine ⟨fun v es hwalk hdrop => ?_, c', hI', hL', hcr3'⟩
      simp only [mmu] at hwalk hdrop ⊢
      split at hwalk
      · rename_i hv
        rw [if_pos hv, hsame]
        rcases low_or_managed v s.spaces.base with ⟨h₁, h₂⟩ | hm
        · rw [hL.trail hcr3 h₁ h₂] at hwalk
          rw [hL'.trail (hsame ▸ hcr3') h₁ h₂]
          exact hwalk
        · have hother : ∀ {virt}, AboveLarge virt → ¬ SamePage virt v →
              ¬ (path virt, ptIndex virt) = (path v, ptIndex v) := fun hout hne e =>
            hne ((samePage_iff hout.1 hv).mpr e)
          have hkeep : (toOp call).word fmt.zero (path v) (ptIndex v) = none →
              fmt.trail s'.spaces.heap.mem s.cr3 (path v) (ptIndex v) = some es := fun hword => by
            have hlib := hstep
            rw [Step, step_eq] at hlib
            exact hI.trail_keeps K hp.plain.fits hlib (hI.root _ hcr3) hm rfl hword hwalk
          cases call with
          | create => exact hkeep rfl
          | map pd virt phys flags =>
              have hinv := map_invlpg hI hp.plain hstep
              exact hkeep (if_neg (hother hp fun hpage => hdrop ⟨virt, hinv, hpage⟩))
          | unmap pd virt =>
              by_cases hpage : SamePage virt v
              · rcases unmap_invlpg hI hp.plain hstep with hinv | hheap
                · exact absurd ⟨virt, hinv, hpage⟩ hdrop
                · rw [hheap]
                  exact hwalk
              · exact hkeep (if_neg (hother hp hpage))
      · cases hwalk

/-- **On x86_64 no entry is ever stale.** -/
theorem coherent {k : KernelImage} (t : BootTables k) {mem : Store ℕ Word} {b : Bitmap}
    (h0 : t.BssZero mem) (hb : KernelReserved k b)
    {tlb : Word → Option (List Word)} (htlb : mmu.Coherent ⟨⟨t.boot mem b, t.pml4⟩, tlb⟩)
    {events : List (TlbEvent (PagingCall 64) Word)}
    {c' : Cached (PagingMachine 64) Word (List Word)}
    (h : Run mmu.CachedStep ⟨⟨t.boot mem b, t.pml4⟩, tlb⟩ events c')
    (hplain : ∀ op ∈ calls events, PlainCall op) : mmu.Coherent c' :=
  htlb.run (I := Managing t) (fun hp hs h => keeps_step hp hs h) h hplain
    ⟨_, boot_inv h0 hb, lowMapped_boot h0, List.mem_cons_self⟩

end X64

namespace I386

/-! ### The i386 target -/

/-- The processor's walk; no call of this target drops an entry of its cache but a load of `cr3`. -/
def mmu : Mmu (PagingMachine 32) (PagingCall 32) Word (List Word) where
  step := PagingMachine.Step Step
  walk s v := fmt.trail s.spaces.heap.mem s.cr3 (path v) (ptIdx v)
  Drops _ op _ :=
    match op with
    | .call _ => False
    | .switchTo _ => True

/-- Storing `entry` for `virt` in `pd` replaces the entry by which the current space translates
`virt`. -/
def Replaces (s : PagingMachine 32) (pd : ℕ) (virt entry : Word) : Prop :=
  ∃ pt, fmt.walk s.spaces.heap.mem pd (path virt) = some pt ∧
    fmt.walk s.spaces.heap.mem s.cr3 (path virt) = some pt ∧
    fmt.present (fmt.entry s.spaces.heap.mem pt (ptIdx virt)) = true ∧
    fmt.entry s.spaces.heap.mem pt (ptIdx virt) ≠ entry

/-- The call unmaps a page that the current space has mapped, or maps it another way. -/
def Retracts (s : PagingMachine 32) : PagingCall 32 → Prop
  | .call (.map pd virt phys flags) =>
      Replaces s pd virt ((phys &&& frameMask) ||| flags ||| pagePresent)
  | .call (.unmap pd virt) => Replaces s pd virt 0
  | _ => False

/-- What a run of calls keeps. -/
def Managing (s : PagingMachine 32) : Prop :=
  ∃ c, Inv fmt pagePool 2 Large c s.spaces ∧ s.cr3 ∈ s.spaces.roots

section Walk

variable {m : Store ℕ Word} {p : ℕ} {v : Word}

theorem walk_iff {pt : ℕ} : fmt.walk m p (path v) = some pt ↔
    fmt.present (fmt.entry m p (pdIdx v)) = true ∧ fmt.target (fmt.entry m p (pdIdx v)) = pt := by
  have hlarge : fmt.large (fmt.entry m p (pdIdx v)) = false := rfl
  rw [path, Format.walk]
  split
  · rename_i hpde
    rw [Format.walk, Option.some.injEq, and_iff_right hpde.1]
  · rename_i hpde
    exact iff_of_false (fun h => by cases h) fun h => hpde ⟨h.1, hlarge⟩

theorem trail_iff {es : List Word} : fmt.trail m p (path v) (ptIdx v) = some es ↔
    ∃ pt, fmt.walk m p (path v) = some pt ∧ fmt.present (fmt.entry m pt (ptIdx v)) = true ∧
      es = [fmt.entry m p (pdIdx v), fmt.entry m pt (ptIdx v)] := by
  have hlarge : ¬ fmt.large (fmt.entry m p (pdIdx v)) = true := Bool.false_ne_true
  rw [path, Format.trail, if_neg hlarge, ← path]
  constructor
  · intro h
    split at h
    · rename_i hpde
      rw [Format.trail] at h
      split at h
      · rename_i hpte
        exact ⟨_, walk_iff.mpr ⟨hpde, rfl⟩, hpte, (Option.some.inj h).symm⟩
      · cases h
    · cases h
  · rintro ⟨pt, hwalk, hpte, rfl⟩
    obtain ⟨hpde, rfl⟩ := walk_iff.mp hwalk
    rw [if_pos hpde, Format.trail, if_pos hpte]
    rfl

end Walk

section Stores

variable {c : ℕ → Option (List (Fin 1024) × ℕ)} {s s' : System} {pd q o : ℕ} {virt : Word}

/-- A descent for `virt` in `pd` stores into no last-level table that was there. -/
theorem next_elsewhere (hI : Inv fmt pagePool 2 Large c s) (hpd : pd ∈ s.roots)
    (hq : c q = some ([pdIdx virt], o)) {pt : ℕ} {h : Machine} {create : Bool}
    (hn : fmt.next pagePool s.heap pd (pdIdx virt) create = some (pt, h)) :
    (∀ k, fmt.entry h.mem q k = fmt.entry s.heap.mem q k) ∧
      (pt ≠ fmt.null → fmt.Valid pt ∧ (q = pt → fmt.walk s.heap.mem pd (path virt) = some q)) := by
  have T := hI.typed
  rw [Format.next] at hn
  split at hn
  · rename_i hpr
    cases hn
    obtain ⟨o', ht⟩ := table_of_present T (hI.root pd hpd) hpr
    exact ⟨fun _ => rfl, fun _ => ⟨T.valid ht, fun e => walk_iff.mpr ⟨hpr, e.symm⟩⟩⟩
  · split at hn
    · obtain ⟨⟨page, pool⟩, htake, e⟩ := Option.map_eq_some_iff.mp hn
      cases e
      have hfree := pagePool.free_of_take htake
      have hpage := T.pool hfree
      have hqpage : q ≠ page := T.ne_free hq hfree
      have hqpd : q ≠ pd := fun e => by
        have hroot := hI.root pd hpd
        rw [← e, hq] at hroot
        cases hroot
      have hqv := T.valid hq
      have hpdv := T.valid (hI.root pd hpd)
      rw [Format.entry_set_same, fmt.target_link hpage]
      refine ⟨fun k => ?_, fun _ => ⟨hpage, fun e => absurd e hqpage⟩⟩
      rw [Format.entry_set_other hpdv hqv (.inl hqpd), Format.entry_clear_other hpage hqv hqpage]
    · cases hn
      exact ⟨fun _ => rfl, fun hnull => absurd rfl hnull⟩

/-- A leaf store for `virt` in `pd` is into no last-level table but that of `pd`. -/
theorem leaf_elsewhere (hI : Inv fmt pagePool 2 Large c s) (hpd : pd ∈ s.roots)
    (hq : c q = some ([pdIdx virt], o)) (hne : fmt.walk s.heap.mem pd (path virt) ≠ some q)
    {create : Bool} {w : Word} {h : Machine}
    (hstore : ((fmt.descend pagePool s.heap pd (path virt) create).map fun x =>
      if x.1 = fmt.null then x.2
      else { x.2 with mem := x.2.mem.set (fmt.slot x.1 (ptIdx virt)) w }) = some h)
    (k : Fin 1024) : fmt.entry h.mem q k = fmt.entry s.heap.mem q k := by
  rw [path, descend_one] at hstore
  obtain ⟨⟨pt, h₁⟩, hn, e⟩ := Option.map_eq_some_iff.mp hstore
  obtain ⟨hentry, htable⟩ := next_elsewhere hI hpd hq hn
  dsimp only at e
  split at e
  · rw [← e]
    exact hentry k
  · rename_i hnull
    obtain ⟨hpt, hsame⟩ := htable hnull
    have hqpt : q ≠ pt := fun e => hne (hsame e)
    rw [← e]
    exact (Format.entry_set_other hpt (hI.typed.valid hq) (.inl hqpt)).trans (hentry k)

end Stores

/-- **A leaf store** keeps the translations of the current space exactly if it replaces none. -/
theorem store_keeps_iff {c c' : ℕ → Option (List (Fin 1024) × ℕ)} {s s' : PagingMachine 32}
    (hI : Inv fmt pagePool 2 Large c s.spaces) (hcr3 : s.cr3 ∈ s.spaces.roots)
    (hsame : s'.cr3 = s.cr3) (K : Kept fmt 2 Large c s.spaces c' s'.spaces)
    {pd : ℕ} (hpd : pd ∈ s.spaces.roots) {virt w : Word}
    (hleaf : fmt.lookup s'.spaces.heap.mem pd (path virt) (ptIdx virt) = w)
    (helse : ∀ {q o}, c q = some ([pdIdx virt], o) →
      fmt.walk s.spaces.heap.mem pd (path virt) ≠ some q → ∀ k,
      fmt.entry s'.spaces.heap.mem q k = fmt.entry s.spaces.heap.mem q k)
    (hother : ∀ {v es}, ¬ SamePage virt v →
      fmt.trail s.spaces.heap.mem s.cr3 (path v) (ptIdx v) = some es →
      fmt.trail s'.spaces.heap.mem s.cr3 (path v) (ptIdx v) = some es) :
    (∀ v es, fmt.trail s.spaces.heap.mem s.cr3 (path v) (ptIdx v) = some es →
      fmt.trail s'.spaces.heap.mem s'.cr3 (path v) (ptIdx v) = some es) ↔
      ¬ Replaces s pd virt w := by
  have hwalk : ∀ {r q}, r ∈ s.spaces.roots → fmt.walk s.spaces.heap.mem r (path virt) = some q →
      fmt.walk s'.spaces.heap.mem r (path virt) = some q := fun hr hw =>
    hI.walk_keeps K (hI.root _ hr) (managed_path virt) (by simp [path]) hw
  rw [hsame]
  constructor
  · rintro hkeeps ⟨pt, hpt, hcur, hpresent, hne⟩
    -- the entry is what the store left, and what it was
    obtain ⟨pt', hcur', -, hes⟩ := trail_iff.mp
      (hkeeps virt _ (trail_iff.mpr ⟨pt, hcur, hpresent, rfl⟩))
    obtain rfl : pt = pt' := Option.some.inj ((hwalk hcr3 hcur).symm.trans hcur')
    rw [Format.lookup, hwalk hpd hpt] at hleaf
    rw [List.cons.injEq, List.cons.injEq] at hes
    exact hne (hes.2.1.trans hleaf)
  · intro hnot v es htrail
    by_cases hpage : SamePage virt v
    · obtain ⟨hpath, hpt⟩ := Prod.mk.inj (samePage_iff.mp hpage)
      rw [← hpath, ← hpt] at htrail ⊢
      obtain ⟨q, hq, hpresent, rfl⟩ := trail_iff.mp htrail
      obtain ⟨o, hqt, -⟩ := hI.typed.walk (hI.root _ hcr3) (managed_path virt) (by simp [path]) hq
      have hentry : fmt.entry s'.spaces.heap.mem q (ptIdx virt) =
          fmt.entry s.spaces.heap.mem q (ptIdx virt) := by
        by_cases hshared : fmt.walk s.spaces.heap.mem pd (path virt) = some q
        · by_contra hchanged
          rw [Format.lookup, hwalk hpd hshared] at hleaf
          exact hnot ⟨q, hshared, hq, hpresent, fun e => hchanged (hleaf.trans e.symm)⟩
        · exact helse hqt hshared _
      have hpde : fmt.entry s'.spaces.heap.mem s.cr3 (pdIdx virt) =
          fmt.entry s.spaces.heap.mem s.cr3 (pdIdx virt) :=
        K.entry _ (hI.root _ hcr3) (by simp) (walk_iff.mp hq).1
      exact trail_iff.mpr ⟨q, hwalk hcr3 hq, hentry ▸ hpresent, by rw [hentry, hpde]⟩
    · exact hother hpage htrail

/-- **A call** keeps the translations cached of the current space exactly if it retracts none. -/
theorem keeps_iff {s s' : PagingMachine 32} {op : PagingCall 32} (hs : Managing s)
    (h : mmu.step s op s') : (mmu.Keeps s op s' ↔ ¬ Retracts s op) ∧ Managing s' := by
  obtain ⟨c, hI, hcr3⟩ := hs
  cases op with
  | switchTo pd =>
      obtain ⟨hpd, rfl⟩ := h
      exact ⟨iff_of_true (fun v e _ hdrop => absurd trivial hdrop) id, c, hI, hpd⟩
  | call call =>
      obtain ⟨hstep, hsame⟩ := h
      have hlib := hstep
      rw [Step, step_eq hI] at hlib
      obtain ⟨c', hI', K⟩ := hI.step (toOp_fits call) hlib
      have hcr3' : s'.cr3 ∈ s'.spaces.roots := hsame ▸ K.roots hcr3
      have hkept : ∀ {v es}, (toOp call).word fmt.zero (path v) (ptIdx v) = none →
          fmt.trail s.spaces.heap.mem s.cr3 (path v) (ptIdx v) = some es →
          fmt.trail s'.spaces.heap.mem s.cr3 (path v) (ptIdx v) = some es := fun {v es} hword =>
        hI.trail_keeps K (toOp_fits call) hlib (hI.root _ hcr3) (managed_path v) rfl hword
      have hpage : ∀ {virt v : Word}, ¬ SamePage virt v →
          ¬ (path virt, ptIdx virt) = (path v, ptIdx v) := fun hne e => hne (samePage_iff.mpr e)
      have hkeeps : mmu.Keeps s (.call call) s' ↔
          ∀ v es, fmt.trail s.spaces.heap.mem s.cr3 (path v) (ptIdx v) = some es →
            fmt.trail s'.spaces.heap.mem s'.cr3 (path v) (ptIdx v) = some es :=
        forall_congr' fun v => forall_congr' fun es => forall_congr' fun _ =>
          ⟨fun h => h id, fun h _ => h⟩
      refine ⟨hkeeps.trans ?_, c', hI', hcr3'⟩
      cases call with
      | create =>
          rw [hsame]
          exact iff_of_true (fun v es => hkept rfl) id
      | map pd virt phys flags =>
          obtain ⟨c₁, h₁, hpd, hspaces, hw⟩ := hI.map (toOp_fits (.map pd virt phys flags)) hlib
          rw [toOp, Spaces.step, if_pos hpd] at hlib
          obtain ⟨h₂, hstore, hspaces₂⟩ := Option.map_eq_some_iff.mp hlib
          refine store_keeps_iff hI hcr3 hsame K hpd (by rw [hspaces]; exact hw.same)
            (fun hq hne k => ?_) fun hne => hkept (if_neg (hpage hne))
          rw [← hspaces₂]
          exact leaf_elsewhere hI hpd hq hne hstore k
      | unmap pd virt =>
          obtain ⟨h₁, hpd, hspaces, hw⟩ := hI.unmap (toOp_fits (.unmap pd virt)) hlib
          rw [toOp, Spaces.step, if_pos hpd] at hlib
          obtain ⟨h₂, hstore, hspaces₂⟩ := Option.map_eq_some_iff.mp hlib
          refine store_keeps_iff hI hcr3 hsame K hpd (by rw [hspaces]; exact hw.same)
            (fun hq hne k => ?_) fun hne => hkept (if_neg (hpage hne))
          rw [← hspaces₂]
          exact leaf_elsewhere hI hpd hq hne hstore k

/-- **On i386 no entry is ever stale** exactly if no call retracts a translation. -/
theorem coherent_iff {s : PagingMachine 32} (hs : Managing s) {tlb : Word → Option (List Word)}
    (htlb : mmu.Coherent ⟨s, tlb⟩) (ops : List (PagingCall 32)) :
    mmu.AlwaysCoherent ⟨s, tlb⟩ ops ↔ Along mmu.step (fun s op _ => ¬ Retracts s op) s ops :=
  (Mmu.coherent_iff htlb).trans <| Along.iff_of_inv (I := Managing)
    (fun hs h => ⟨(keeps_iff hs h).1, fun _ => (keeps_iff hs h).2⟩) hs

end I386

/-- **Stale translations.**  On x86_64, from the boot tables on, whatever the processor enters and
drops between the calls, no cached translation is ever stale, as long as the calls keep clear of the
2 MiB entries.  On i386, in any run of calls on a directory that was zeroed, as in the one that
`init_paging` makes, that is so exactly if no call since `cr3` was loaded unmaps a page that the
current space has mapped, or maps it another way. -/
theorem translations_coherent_iff :
    (∀ (k : KernelImage) (t : X64.BootTables k) mem b, t.BssZero mem → X64.KernelReserved k b →
      ∀ tlb events c', X64.mmu.Coherent ⟨⟨t.boot mem b, t.pml4⟩, tlb⟩ →
        Run X64.mmu.CachedStep ⟨⟨t.boot mem b, t.pml4⟩, tlb⟩ events c' →
        (∀ op ∈ calls events, X64.PlainCall op) → X64.mmu.Coherent c') ∧
    (∀ h pd, I386.ZeroedRoot h pd → ∀ before s, Run I386.Step ⟨h, pd, []⟩ before s →
      ∀ ops, I386.mmu.AlwaysCoherent ⟨⟨s, pd⟩, fun _ => none⟩ ops ↔
        Along I386.mmu.step (fun s op _ => ¬ I386.Retracts s op) ⟨s, pd⟩ ops) ∧
    ∀ h pd h', LowReserved h.pool → I386.initPaging h = some (pd, h') →
      ∀ ops, I386.mmu.AlwaysCoherent ⟨⟨⟨h', pd, []⟩, pd⟩, fun _ => none⟩ ops ↔
        Along I386.mmu.step (fun s op _ => ¬ I386.Retracts s op) ⟨⟨h', pd, []⟩, pd⟩ ops := by
  have hempty : ∀ s, I386.mmu.Coherent ⟨s, fun _ => none⟩ := fun s v e he => by cases he
  have hi386 : ∀ h pd, I386.ZeroedRoot h pd → ∀ before s, Run I386.Step ⟨h, pd, []⟩ before s →
      ∀ ops, I386.mmu.AlwaysCoherent ⟨⟨s, pd⟩, fun _ => none⟩ ops ↔
        Along I386.mmu.step (fun s op _ => ¬ I386.Retracts s op) ⟨s, pd⟩ ops := by
    intro h pd hz before s hrun ops
    obtain ⟨c, hI, K⟩ := I386.inv_run hrun hz.inv
    exact I386.coherent_iff ⟨c, hI, K.roots List.mem_cons_self⟩ (hempty _) ops
  refine ⟨fun k t mem b h0 hb tlb events c' htlb hrun hplain =>
    X64.coherent t h0 hb htlb hrun hplain, hi386, fun h pd h' hlow e ops => ?_⟩
  obtain ⟨h₀, hz, hrun⟩ := I386.initPaging_run hlow e
  exact hi386 h₀ pd hz _ _ hrun ops

/-- A page is mapped and unmapped.  On i386 it may still be reached. -/
theorem stale_after_unmap : ∃ s s' : I386.System,
    I386.Step ⟨zeroMachine, 0x101000, []⟩ (.map 0x101000 0x400000 0x5000 7) s ∧
    I386.Step s (.unmap 0x101000 0x400000) s' ∧
    ¬ I386.mmu.AlwaysCoherent ⟨⟨s, 0x101000⟩, fun _ => none⟩
      [.call (.unmap 0x101000 0x400000)] := by
  have h : ((I386.step ⟨zeroMachine, 0x101000, []⟩ (.map 0x101000 0x400000 0x5000 7)).map fun s =>
      (I386.fmt.walk s.heap.mem 0x101000 (I386.path 0x400000),
        I386.fmt.entry s.heap.mem 0x200000 (I386.ptIdx 0x400000),
        (I386.step s (.unmap 0x101000 0x400000)).isSome)) =
      some (some 0x200000, 0x5007, true) := by decide +kernel
  obtain ⟨s, hs, e⟩ := Option.map_eq_some_iff.mp h
  obtain ⟨hwalk, hentry, hunmap⟩ : _ ∧ _ ∧ _ := by simpa only [Prod.mk.injEq] using e
  obtain ⟨s', hs'⟩ := Option.isSome_iff_exists.mp hunmap
  refine ⟨s, s', hs, hs', fun hcoherent => ?_⟩
  have halong :=
    (translations_coherent_iff.2.1 _ _ I386.zeroMachine_root _ s (.one hs) _).mp hcoherent
  refine (halong ⟨s', 0x101000⟩ ⟨hs', rfl⟩).1 ⟨0x200000, hwalk, hwalk, ?_, ?_⟩
  · dsimp only
    rw [hentry]
    decide
  · dsimp only
    rw [hentry]
    decide

end ZeptoOS
