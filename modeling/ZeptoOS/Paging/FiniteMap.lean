import ZeptoOS.I386.Vmm
import ZeptoOS.X64.Boot

/-!
# Paging — FiniteMap

A root directory as a finite map from pages to frames: `vmm_get_phys_addr` reports the frame of
the last call that mapped the page, and 0 where there is none or a later call unmapped it
(`lastMapped`).

On either target this is `Inv.read_step`, carried along a run by the last-write rule, with the
words of leaves read as the translations they give (`I386.translation_run`,
`X64.translation_run`).  `page_tables_refine_map` puts the targets together.
-/

namespace ZeptoOS
open Lib

namespace I386

/-- `pd` is a directory of zeros in a page that is not free, over a bitmap with the first megabyte
marked. -/
structure ZeroedRoot (h : Machine) (pd : ℕ) : Prop where
  page : PageAddr 32 pd
  busy : ¬ PageFree h.pool pd
  low : LowReserved h.pool
  zero : ∀ i, fmt.entry h.mem pd i = 0

theorem ZeroedRoot.inv {h : Machine} {pd : ℕ} (hz : ZeroedRoot h pd) :
    Inv fmt pagePool 2 Large (fun r => if r = pd then some ([], pd) else none) ⟨h, pd, []⟩ :=
  Inv.zeroed hz.page hz.busy (pageAddr_of_free hz.low) hz.zero (by decide)

/-- What `vmm_get_phys_addr` reports of a page mapped to `f`, or to nothing. -/
def reported (f : Option Word) : Word := f.getD 0

/-- The calls `vmm_map_page(pd, …)` and `vmm_unmap_page(pd, …)` on `s₀` act as updates of a finite
map that starts empty. -/
structure RefinesMap (pd : ℕ) (s₀ : System) : Prop where
  last : ∀ {calls s}, Run Step s₀ calls s →
    (∀ c ∈ calls, c.On pd ∧ c.NoAddressBits frameMask) → pd ∈ s.roots → ∀ v,
    vmmGetPhysAddr s.heap pd v = some (reported (lastMapped frameMask pd v calls))
  other : ∀ {calls s call s'}, Run Step s₀ calls s → Step s call s' →
    (∀ c ∈ calls ++ [call], c.On pd ∧ c.NoAddressBits frameMask) → pd ∈ s.roots → ∀ v,
    call.effect frameMask pd v = none → vmmGetPhysAddr s'.heap pd v = vmmGetPhysAddr s.heap pd v

theorem word_frame {call : VmmCall 32} {pd : ℕ} (hon : call.On pd)
    (hf : call.NoAddressBits frameMask) (v : Word) :
    ((toOp call).word fmt.zero (path v) (ptIdx v)).map (· &&& frameMask) =
      (call.effect frameMask pd v).map reported := by
  cases call with
  | create => rfl
  | map p virt phys flags =>
      obtain rfl : p = pd := hon
      have hor : (flags &&& frameMask) ||| (phys &&& frameMask) = phys &&& frameMask := by
        rw [show flags &&& frameMask = 0 from hf]
        exact BitVec.zero_or
      have hframe := frame_leaf (by decide) hor
      simp only [toOp, SpaceOp.word, VmmCall.effect, true_and, ← samePage_iff]
      split
      · exact congrArg some hframe
      · rfl
  | unmap p virt =>
      obtain rfl : p = pd := hon
      simp only [toOp, SpaceOp.word, VmmCall.effect, true_and, ← samePage_iff]
      split
      · exact congrArg some BitVec.zero_and
      · rfl

/-- **A run on one root**: the frame reported is the last one mapped. -/
theorem translation_run {s₀ s : System} {calls : List (VmmCall 32)} {pd : ℕ}
    {c : ℕ → Option (List (Fin 1024) × ℕ)} (hI : Inv fmt pagePool 2 Large c s₀)
    (hr : Run Step s₀ calls s) (hcalls : ∀ c ∈ calls, c.On pd ∧ c.NoAddressBits frameMask)
    (hpd : pd ∈ s.roots) (v : Word) (h0 : s₀.read fmt pd (path v) (ptIdx v) = 0) :
    vmmGetPhysAddr s.heap pd v = some (reported (lastMapped frameMask pd v calls)) := by
  obtain ⟨c', hI', -⟩ := inv_run hr hI
  have hread := hr.latest (I := fun s => ∃ c, Inv fmt pagePool 2 Large c s)
    (r := fun s => s.read fmt pd (path v) (ptIdx v) &&& frameMask)
    (e := fun c => (c.effect frameMask pd v).map reported)
    (fun {s l s'} hl ⟨c, hI⟩ h => by
      rw [Step, step_eq hI] at h
      obtain ⟨c₁, hI₁, -⟩ := hI.step (toOp_fits l) h
      refine ⟨⟨c₁, hI₁⟩, ?_⟩
      have hon : (toOp l).On pd := by
        cases l with
        | create => trivial
        | map | unmap => exact hl.1
      rw [hI.read_step hon (toOp_fits l) h (managed_path v) rfl, ← word_frame hl.1 hl.2 v]
      exact (Option.getD_map (· &&& frameMask) _ _).symm) hcalls ⟨c, hI⟩
  have hzero : (0 : Word) &&& frameMask = 0 := by decide
  rw [h0, Spaces.read, if_pos hpd, hzero] at hread
  rw [vmmGetPhysAddr_eq hI'.typed (hI'.root pd hpd), hread]
  exact congrArg some (findSome?_effect reported calls)

theorem refinesMap {s₀ : System} {pd : ℕ} {c : ℕ → Option (List (Fin 1024) × ℕ)}
    (hI : Inv fmt pagePool 2 Large c s₀)
    (h0 : ∀ v, s₀.read fmt pd (path v) (ptIdx v) = 0) : RefinesMap pd s₀ where
  last hr hcalls hpd v := translation_run hI hr hcalls hpd v (h0 v)
  other {calls s call s'} hr hcall hcalls hpd v he := by
    have hpd' : pd ∈ s'.roots := by
      obtain ⟨c₁, hI₁, -⟩ := inv_run hr hI
      obtain ⟨_, -, K⟩ := inv_run (.one hcall) hI₁
      exact K.roots hpd
    rw [translation_run hI (hr.trans (.one hcall)) hcalls hpd' v (h0 v), lastMapped_other he,
      translation_run hI hr (fun c hc => hcalls c (List.mem_append_left _ hc)) hpd v (h0 v)]

theorem ZeroedRoot.refinesMap {h : Machine} {pd : ℕ} (hz : ZeroedRoot h pd) :
    RefinesMap pd ⟨h, pd, []⟩ :=
  I386.refinesMap hz.inv fun v => by
    have hpd : pd ∈ (⟨h, pd, []⟩ : System).roots := List.mem_cons_self
    rw [Spaces.read, if_pos hpd]
    exact Format.lookup_zeroed hz.zero _ _

/-! #### `init_paging` -/

/-- The calls of `init_paging`'s loop. -/
def identityCalls (pd n : ℕ) : List (VmmCall 32) :=
  (List.range n).map fun i =>
    .map pd (BitVec.ofNat 32 (0x1000 * i)) (BitVec.ofNat 32 (0x1000 * i))
      (pagePresent ||| pageWrite ||| pageUser)

theorem identityCalls_succ (pd n : ℕ) : identityCalls pd (n + 1) = identityCalls pd n ++
    [.map pd (BitVec.ofNat 32 (0x1000 * n)) (BitVec.ofNat 32 (0x1000 * n))
      (pagePresent ||| pageWrite ||| pageUser)] := by
  rw [identityCalls, List.range_succ, List.map_append]
  rfl

/-- The loop is a run of its calls. -/
theorem identityCalls_run {pd : ℕ} :
    ∀ (n : ℕ) {h h' : Machine}, (List.range n).foldlM (fun h i =>
      let addr := BitVec.ofNat 32 (0x1000 * i)
      vmmMapPage h pd addr addr (pagePresent ||| pageWrite ||| pageUser)) h = some h' →
      Run Step ⟨h, pd, []⟩ (identityCalls pd n) ⟨h', pd, []⟩
  | 0, h, h', e => by
      cases e
      exact .refl _
  | n + 1, h, h', e => by
      rw [List.range_succ, List.foldlM_append, Option.bind_eq_bind, Option.bind_eq_some_iff] at e
      obtain ⟨h₁, e₁, e₂⟩ := e
      have hpd : pd ∈ (⟨h₁, pd, []⟩ : System).roots := List.mem_cons_self
      have hmap : vmmMapPage h₁ pd (BitVec.ofNat 32 (0x1000 * n)) (BitVec.ofNat 32 (0x1000 * n))
          (pagePresent ||| pageWrite ||| pageUser) = some h' := by
        simpa using e₂
      rw [identityCalls_succ]
      refine (identityCalls_run n e₁).trans (.one ?_)
      rw [Step, step, if_pos hpd, hmap]
      rfl

/-- **`init_paging`** is a run from a zeroed root. -/
theorem initPaging_run {h h' : Machine} {pd : ℕ} (hlow : LowReserved h.pool)
    (e : initPaging h = some (pd, h')) :
    ∃ h₀, ZeroedRoot h₀ pd ∧ Run Step ⟨h₀, pd, []⟩ (identityCalls pd 0x1000) ⟨h', pd, []⟩ := by
  simp only [initPaging, Option.bind_eq_bind, Option.bind_eq_some_iff, Option.some.injEq,
    Prod.mk.injEq] at e
  obtain ⟨⟨p, pool⟩, halloc, h₁, hloop, rfl, rfl⟩ := e
  have htake : pagePool.take h.pool = some (p, pool) := halloc
  have hp := pageAddr_of_free hlow (pagePool.free_of_take htake)
  refine ⟨⟨clearTable h.mem p, pool⟩, ⟨hp, fun hfree => ?_, fun i hi => ?_, fun i => ?_⟩,
    identityCalls_run 0x1000 hloop⟩
  · exact ((pagePool.free_take_iff htake).mp hfree).2 rfl
  · obtain ⟨k, -, -, -, rfl⟩ := pmmAlloc_some halloc
    rw [bitTest, bitSet, PackedBits.test_set, show h.pool.test i = true from hlow i hi,
      Bool.or_true]
  · simp only [clearTable_eq]
    exact Format.entry_clear_same hp i

/-- The loop's calls leave the pages below `n` mapped to themselves. -/
theorem lastMapped_identityCalls {pd : ℕ} {v : Word} :
    ∀ n ≤ 0x1000, lastMapped frameMask pd v (identityCalls pd n) =
      if v.toNat / 4096 < n then some (v &&& frameMask) else none
  | 0, _ => by simp [identityCalls, lastMapped]
  | n + 1, hn => by
      have ih : lastMapped frameMask pd v (identityCalls pd n) = _ :=
        lastMapped_identityCalls n (by omega)
      have haddr : (BitVec.ofNat 32 (0x1000 * n)).toNat / 4096 = n := by
        rw [BitVec.toNat_ofNat]
        omega
      rw [identityCalls_succ]
      by_cases hv : n = v.toNat / 4096
      · have hframe : BitVec.ofNat 32 (0x1000 * n) &&& frameMask = v &&& frameMask := by
          rw [frameMask_bits.frame, frameMask_bits.frame, show (2 : ℕ) ^ 12 = 4096 from rfl, haddr,
            hv]
        rw [lastMapped_same (f := some (v &&& frameMask)), if_pos (by omega)]
        rw [VmmCall.effect, if_pos ⟨rfl, haddr.trans hv⟩, hframe]
      · rw [lastMapped_other, ih]
        · simp only [show v.toNat / 4096 < n + 1 ↔ v.toNat / 4096 < n by omega]
        · rw [VmmCall.effect, if_neg fun h => hv (haddr.symm.trans h.2)]

/-- After `init_paging` every address below 16 MiB translates to its own page. -/
theorem initPaging_identity {h h' : Machine} {pd : ℕ} (hlow : LowReserved h.pool)
    (e : initPaging h = some (pd, h')) {v : Word} (hv : v.toNat < 0x1000000) :
    vmmGetPhysAddr h' pd v = some (v &&& frameMask) := by
  obtain ⟨h₀, hz, hr⟩ := initPaging_run hlow e
  have hcalls : ∀ c ∈ identityCalls pd 0x1000, c.On pd ∧ c.NoAddressBits frameMask := fun c hc => by
    obtain ⟨i, -, rfl⟩ := List.mem_map.mp hc
    exact ⟨rfl, show _ = _ by decide⟩
  rw [hz.refinesMap.last hr hcalls List.mem_cons_self v, lastMapped_identityCalls _ le_rfl,
    if_pos (by omega)]
  rfl

end I386

namespace X64

/-- `pd` is a table of zeros in a page that is not free, over a bitmap with the first megabyte
marked. -/
structure ZeroedRoot (h : Machine) (pd : ℕ) : Prop where
  page : PageAddr 52 pd
  busy : ¬ PageFree h.pool pd
  low : LowReserved h.pool
  zero : ∀ i, fmt.entry h.mem pd i = 0

theorem ZeroedRoot.inv {h : Machine} {pd : ℕ} (hz : ZeroedRoot h pd) :
    Inv fmt pagePool 4 (fun _ => False) (fun r => if r = pd then some ([], pd) else none)
      ⟨h, pd, []⟩ :=
  Inv.zeroed hz.page hz.busy
    (fun hq => ⟨hq.1, by have := hz.low.page hq; omega, by have := hz.low.page hq; omega⟩)
    hz.zero (by decide)

/-- What `vmm_get_phys_addr` reports of the page of `v` mapped to `f`, or to nothing. -/
def reported (v : Word) : Option Word → Word
  | none => 0
  | some f => f ||| (v &&& 0xFFF)

/-- The call is on addresses in `A`. -/
def CallIn (A : Word → Prop) : VmmCall 64 → Prop
  | .create => True
  | .map _ virt _ _ | .unmap _ virt => A virt

/-- The call is on `pd` and on addresses in `A`, and its flags have no address bits. -/
structure MapCall (pd : ℕ) (A : Word → Prop) (c : VmmCall 64) : Prop where
  on : c.On pd
  addr : CallIn A c
  flags : c.NoAddressBits frameMask

/-- The calls `vmm_map_page(pd, …)` and `vmm_unmap_page(pd, …)` on `s₀` act, on the addresses in
`A`, as updates of a finite map that starts empty. -/
structure RefinesMap (pd : ℕ) (A : Word → Prop) (s₀ : System) : Prop where
  last : ∀ {calls s}, Run Step s₀ calls s → (∀ c ∈ calls, MapCall pd A c) → pd ∈ s.roots →
    ∀ v, A v → vmmGetPhysAddr s.heap.mem pd v = reported v (lastMapped frameMask pd v calls)
  other : ∀ {calls s call s'}, Run Step s₀ calls s → Step s call s' →
    (∀ c ∈ calls ++ [call], MapCall pd A c) → pd ∈ s.roots → ∀ v, A v →
    call.effect frameMask pd v = none →
    vmmGetPhysAddr s'.heap.mem pd v = vmmGetPhysAddr s.heap.mem pd v

section Run

variable {Foreign : List (Fin 512) → Prop} {A : Word → Prop} {pd : ℕ}

/-- The addresses in `A` are canonical, and none goes through a foreign entry. -/
def Managed (Foreign : List (Fin 512) → Prop) (A : Word → Prop) : Prop :=
  ∀ v, A v → Canonical v ∧ (⟨4, 0, Foreign⟩ : Plan (Fin 512) ℕ).Managed [] (path v)

theorem MapCall.fits (hA : Managed Foreign A) {c : VmmCall 64} (hc : MapCall pd A c) :
    (toOp c).Fits 4 Foreign := by
  cases c with
  | create => trivial
  | map | unmap => exact ⟨Plan.managed_base (hA _ hc.addr).2, rfl⟩

theorem word_translate (hA : Managed Foreign A) {call : VmmCall 64} (hc : MapCall pd A call)
    {v : Word} (hv : A v) :
    ((toOp call).word fmt.zero (path v) (ptIndex v)).map (translate · v) =
      (call.effect frameMask pd v).map (reported v) := by
  cases call with
  | create => rfl
  | map p virt phys flags =>
      obtain rfl : p = pd := hc.on
      have hor : (flags &&& frameMask) ||| (phys &&& frameMask) = phys &&& frameMask := by
        rw [show flags &&& frameMask = 0 from hc.flags]
        exact BitVec.zero_or
      have hleaf : _ = (phys &&& frameMask) ||| (v &&& 0xFFF) := translate_leaf hor
      simp only [toOp, SpaceOp.word, VmmCall.effect, true_and,
        ← samePage_iff (hA _ hc.addr).1 (hA v hv).1]
      split
      · exact congrArg some hleaf
      · rfl
  | unmap p virt =>
      obtain rfl : p = pd := hc.on
      simp only [toOp, SpaceOp.word, VmmCall.effect, true_and,
        ← samePage_iff (hA _ hc.addr).1 (hA v hv).1]
      split <;> rfl

/-- **A run on one root**: the translation is the last one mapped. -/
theorem translation_run {s₀ s : System} {calls : List (VmmCall 64)}
    {c : ℕ → Option (List (Fin 512) × ℕ)} (hI : Inv fmt pagePool 4 Foreign c s₀)
    (hA : Managed Foreign A) (hr : Run Step s₀ calls s) (hcalls : ∀ c ∈ calls, MapCall pd A c)
    (hpd : pd ∈ s.roots) {v : Word} (hv : A v)
    (h0 : s₀.read fmt pd (path v) (ptIndex v) = 0) :
    vmmGetPhysAddr s.heap.mem pd v = reported v (lastMapped frameMask pd v calls) := by
  obtain ⟨c', hI', -⟩ := inv_run hr (fun c hc => (hcalls c hc).fits hA) hI
  have hread := hr.latest (I := fun s => ∃ c, Inv fmt pagePool 4 Foreign c s)
    (r := fun s => translate (s.read fmt pd (path v) (ptIndex v)) v)
    (e := fun c => (c.effect frameMask pd v).map (reported v))
    (fun {s l s'} hl ⟨c, hI⟩ h => by
      rw [Step, step_eq] at h
      obtain ⟨c₁, hI₁, -⟩ := hI.step (hl.fits hA) h
      refine ⟨⟨c₁, hI₁⟩, ?_⟩
      have hon : (toOp l).On pd := by
        cases l with
        | create => trivial
        | map | unmap => exact hl.on
      rw [hI.read_step hon (hl.fits hA) h (Plan.managed_base (hA v hv).2) rfl,
        ← word_translate hA hl hv]
      exact (Option.getD_map (translate · v) _ _).symm) hcalls ⟨c, hI⟩
  rw [h0, Spaces.read, if_pos hpd] at hread
  rw [vmmGetPhysAddr_eq hI'.typed (hI'.root pd hpd) (Plan.managed_base (hA v hv).2), hread]
  exact findSome?_effect (reported v) calls

theorem refinesMap {s₀ : System} {c : ℕ → Option (List (Fin 512) × ℕ)}
    (hI : Inv fmt pagePool 4 Foreign c s₀) (hA : Managed Foreign A)
    (h0 : ∀ v, A v → s₀.read fmt pd (path v) (ptIndex v) = 0) : RefinesMap pd A s₀ where
  last hr hcalls hpd v hv := translation_run hI hA hr hcalls hpd hv (h0 v hv)
  other {calls s call s'} hr hcall hcalls hpd v hv he := by
    have hcalls' : ∀ c ∈ calls, MapCall pd A c :=
      fun c hc => hcalls c (List.mem_append_left _ hc)
    have hpd' : pd ∈ s'.roots := by
      obtain ⟨c₁, hI₁, -⟩ := inv_run hr (fun c hc => (hcalls' c hc).fits hA) hI
      obtain ⟨_, -, K⟩ := inv_run (.one hcall)
        (fun c hc => (hcalls c (List.mem_append_right _ hc)).fits hA) hI₁
      exact K.roots hpd
    rw [translation_run hI hA (hr.trans (.one hcall)) hcalls hpd' hv (h0 v hv),
      lastMapped_other he, translation_run hI hA hr hcalls' hpd hv (h0 v hv)]

end Run

theorem ZeroedRoot.refinesMap {h : Machine} {pd : ℕ} (hz : ZeroedRoot h pd) :
    RefinesMap pd Canonical ⟨h, pd, []⟩ :=
  X64.refinesMap hz.inv (fun _ hv => ⟨hv, id, id, id, trivial⟩) fun v _ => by
    have hpd : pd ∈ (⟨h, pd, []⟩ : System).roots := List.mem_cons_self
    rw [Spaces.read, if_pos hpd]
    exact Format.lookup_zeroed hz.zero _ _

/-- After boot nothing is mapped from 1 GiB on. -/
theorem lookup_boot {k : KernelImage} {t : BootTables k} {mem : Store ℕ Word}
    (h0 : t.BssZero mem) {v : Word} (hv : AboveLarge v) :
    fmt.lookup (t.setupPageTables mem) t.pml4 (path v) (ptIndex v) = 0 := by
  have hzero : fmt.present 0 = false := fmt.present_zero
  by_cases h₁ : pml4Index v = 0
  · have h₂ : pdptIndex v ≠ 0 := fun h₂ => hv.outside ⟨h₁, h₂⟩
    have hp := BootTables.valid (t := t) (p := t.pdpt) (.inr (.inl rfl))
    have hlink : fmt.entry (t.setupPageTables mem) t.pml4 (pml4Index v) = fmt.link t.pdpt := by
      rw [setup_pml4 h0, if_pos h₁]
    rw [path, Format.lookup_cons (by rw [hlink]; exact fmt.present_link hp)
      (by rw [hlink]; exact fmt.large_link hp), hlink, fmt.target_link hp]
    exact Format.lookup_absent (by rw [setup_pdpt h0, if_neg h₂]; exact hzero) _ _
  · exact Format.lookup_absent (by rw [setup_pml4 h0, if_neg h₁]; exact hzero) _ _

/-- From the boot tables on, any root is a finite map of the addresses outside the 2 MiB
entries. -/
theorem refinesMap_boot {k : KernelImage} {t : BootTables k} {mem : Store ℕ Word} {b : Bitmap}
    (h0 : t.BssZero mem) (hb : KernelReserved k b) (pd : ℕ) :
    RefinesMap pd AboveLarge (t.boot mem b) :=
  X64.refinesMap (boot_inv h0 hb) (fun _ hv => ⟨hv.1, hv.outside.managed⟩) fun v hv => by
    have hroot : (if pd ∈ (t.boot mem b).roots then pd else (t.boot mem b).base) = t.pml4 := by
      split
      · rename_i hpd
        simpa [Spaces.roots, BootTables.boot] using hpd
      · rfl
    rw [Spaces.read, hroot]
    simp only [BootTables.boot]
    exact lookup_boot h0 hv

end X64

/-- **Page tables refine a finite map.**  On the i386 target a directory that starts zeroed, and on
the x86_64 target a root that starts zeroed, for canonical addresses, or any root of a system that
starts from the boot tables, for canonical addresses outside the 2 MiB entries: after any calls on
the root, a page translates to the frame it was last mapped to, or to 0 where it was not mapped or
was unmapped since, and a call on one page changes no other page's translation.  After the i386
`init_paging` every address below 16 MiB translates to its own page. -/
theorem page_tables_refine_map :
    (∀ h pd, I386.ZeroedRoot h pd → I386.RefinesMap pd ⟨h, pd, []⟩) ∧
    (∀ h pd, X64.ZeroedRoot h pd → X64.RefinesMap pd X64.Canonical ⟨h, pd, []⟩) ∧
    (∀ (k : KernelImage) (t : X64.BootTables k) mem b, t.BssZero mem → X64.KernelReserved k b →
      ∀ pd, X64.RefinesMap pd X64.AboveLarge (t.boot mem b)) ∧
    (∀ h pd h', LowReserved h.pool → I386.initPaging h = some (pd, h') →
      ∀ v : I386.Word, v.toNat < 0x1000000 →
        I386.vmmGetPhysAddr h' pd v = some (v &&& I386.frameMask)) :=
  ⟨fun _ _ hz => hz.refinesMap, fun _ _ hz => hz.refinesMap,
    fun _ _ _ _ h0 hb pd => X64.refinesMap_boot h0 hb pd,
    fun _ _ _ hlow e _ hv => I386.initPaging_identity hlow e hv⟩

theorem page_tables_refine_map_boot :
    ∃ s', X64.Step X64.bootSystem (.map 0x101000 0x40000000 0x1000000 7) s' ∧
      X64.vmmGetPhysAddr s'.heap.mem 0x101000 0x40000ABC = 0x1000ABC ∧
      X64.vmmGetPhysAddr s'.heap.mem 0x101000 0x40001ABC = 0 := by
  obtain ⟨s', h⟩ := X64.step_map_some X64.bootSystem_root
    X64.bootBitmap_has.pred.pred.pred.pred.pred 0x40000000 0x1000000 7
  have hmap := page_tables_refine_map.2.2.1 _ X64.bootTables ⟨fun _ => 0, []⟩ X64.bootBitmap
    (fun _ => ⟨rfl, rfl⟩) X64.bootBitmap_kernelReserved 0x101000
  have hcalls : ∀ c ∈ [VmmCall.map 0x101000 0x40000000 0x1000000 7],
      X64.MapCall 0x101000 X64.AboveLarge c := fun c hc => by
    obtain rfl := List.mem_singleton.mp hc
    exact ⟨rfl, show X64.AboveLarge _ by decide, show _ = _ by decide⟩
  have hroot : 0x101000 ∈ s'.roots := by
    have hmanaged : X64.Managed X64.Large X64.AboveLarge :=
      fun v hv => ⟨hv.1, hv.outside.managed⟩
    obtain ⟨c, hI, K⟩ := X64.inv_run (.one h) (fun c hc => (hcalls c hc).fits hmanaged)
      (X64.boot_inv (t := X64.bootTables) (fun _ => ⟨rfl, rfl⟩) X64.bootBitmap_kernelReserved)
    exact K.roots List.mem_cons_self
  exact ⟨s', h, hmap.last (.one h) hcalls hroot 0x40000ABC (by decide),
    hmap.last (.one h) hcalls hroot 0x40001ABC (by decide)⟩

end ZeptoOS
