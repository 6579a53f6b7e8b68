import ZeptoOS.I386.Clone
import ZeptoOS.Paging.Isolation

/-!
# Paging — Clone

`vmm_clone_address_space` on both targets.  The i386 one copies page tables and passes over absent
entries: it leaves the two spaces independent, and is faithful where the destination had nothing of
its own.  The x86_64 one copies the top level: it is always faithful, and leaves the two spaces with
common tables, so that a later call on one is seen in the other wherever the source had a top-level
entry (`unmapped_in_clone`).  `clone_meets_iff` says exactly when each does both.
-/

namespace ZeptoOS
open Lib

namespace X64

/-- `vmm_clone_address_space` -/
def vmmCloneAddressSpace (mem : Store ℕ Word) (src dst : ℕ) : Store ℕ Word :=
  (List.finRange 512).foldl (fun mem i => mem.set (slot dst i) (mem.cell (slot src i))) mem

theorem vmmCloneAddressSpace_eq (m : Store ℕ Word) (src dst : ℕ) :
    vmmCloneAddressSpace m src dst = fmt.copySlots m src dst := by
  simp only [vmmCloneAddressSpace, Format.copySlots, slot_eq, indices_eq]
  rfl

/-- The system after `src` is cloned to `dst`. -/
def clone (s : System) (src dst : ℕ) : System :=
  { s with heap := { s.heap with mem := vmmCloneAddressSpace s.heap.mem src dst } }

section Clone

variable {k : KernelImage} {t : BootTables k} {c : ℕ → Option (List (Fin 512) × ℕ)}
  {s s' : System} {src dst : ℕ}

theorem clone_eq (s : System) (src dst : ℕ) : clone s src dst =
    { s with heap := { s.heap with mem := fmt.copySlots s.heap.mem src dst } } := by
  rw [clone, vmmCloneAddressSpace_eq]

theorem clone_roots (s : System) (src dst : ℕ) : (clone s src dst).roots = s.roots := by
  simp only [clone, Spaces.roots]

/-- Both spaces have the top level of `src`. -/
theorem clone_entry (hR : s.RootsValid fmt pagePool) (hsrc : src ∈ s.roots)
    (hdst : dst ∈ s.roots) (hne : src ≠ dst) (i : Fin 512) :
    fmt.entry (clone s src dst).heap.mem src i = fmt.entry s.heap.mem src i ∧
      fmt.entry (clone s src dst).heap.mem dst i = fmt.entry s.heap.mem src i := by
  have hs := hR src (.inl hsrc)
  have hd := hR dst (.inl hdst)
  simp only [clone_eq]
  exact ⟨Format.copySlots_other hd hs hne, Format.copySlots_same hs hd hne⟩

/-- A translation depends on its root only through the top-level entry. -/
theorem vmmGetPhysAddr_congr {m : Store ℕ Word} {a b : ℕ} {v : Word}
    (h : fmt.entry m a (pml4Index v) = fmt.entry m b (pml4Index v)) :
    vmmGetPhysAddr m a v = vmmGetPhysAddr m b v := by
  have h : m.cell (slot a (pml4Index v)) = m.cell (slot b (pml4Index v)) := h
  simp only [vmmGetPhysAddr, h]

/-- The two spaces translate alike. -/
def Faithful (mem : Store ℕ Word) (src dst : ℕ) : Prop :=
  ∀ v, vmmGetPhysAddr mem dst v = vmmGetPhysAddr mem src v

theorem clone_faithful (hR : s.RootsValid fmt pagePool) (hsrc : src ∈ s.roots)
    (hdst : dst ∈ s.roots) (hne : src ≠ dst) : Faithful (clone s src dst).heap.mem src dst := by
  intro v
  obtain ⟨h₁, h₂⟩ := clone_entry hR hsrc hdst hne (pml4Index v)
  exact vmmGetPhysAddr_congr (h₂.trans h₁.symm)

/-- **The clone is faithful** in every run, also one that stores below 2 MiB entries. -/
theorem run_clone_faithful {mem : Store ℕ Word} {bm : Bitmap} (h0 : t.BssZero mem)
    (hbm : KernelReserved k bm) {calls : List (VmmCall 64)}
    (hr : Run Step (t.boot mem bm) calls s) (hsrc : src ∈ s.roots) (hdst : dst ∈ s.roots)
    (hne : src ≠ dst) : Faithful (clone s src dst).heap.mem src dst := by
  refine clone_faithful ?_ hsrc hdst hne
  refine hr.inv (I := fun s => s.RootsValid fmt pagePool) (P := fun _ => True) (fun _ hR h => ?_)
    (fun _ _ => trivial) (boot_bootInv h0 hbm).inv.rootsValid
  rw [Step, step_eq] at h
  exact hR.step h

/-- A clone keeps the 2 MiB entries. -/
theorem BootInv.clone (hI : BootInv t c s) (hbase : s.base = t.pml4) (hsrc : src ∈ s.roots)
    (hdst : dst ∈ s.roots) (hne : src ≠ dst) :
    BootInv t (Format.share c src s.base) (X64.clone s src dst) := by
  have T := hI.inv.typed
  have hcdst := hI.inv.root dst hdst
  have hother : ∀ {r x} (i : Fin 512), c r = some x → r ≠ dst →
      fmt.entry (fmt.copySlots s.heap.mem src dst) r i = fmt.entry s.heap.mem r i :=
    fun i hr hrd => Format.copySlots_other (T.valid hcdst) (T.valid hr) hrd
  have hinner : ∀ {r x} (i : Fin 512), c r = some x → x.1 ≠ [] →
      fmt.entry (fmt.copySlots s.heap.mem src dst) r i = fmt.entry s.heap.mem r i :=
    fun i hr hx => hother i hr fun e => by
      rw [e, hcdst] at hr
      cases hr
      exact hx rfl
  have hsame : ∀ i, fmt.entry (fmt.copySlots s.heap.mem src dst) dst i =
      fmt.entry s.heap.mem src i :=
    fun i => Format.copySlots_same (T.valid (hI.inv.root src hsrc)) (T.valid hcdst) hne
  have hinv := hI.inv.copySlots hsrc hdst hne
  rw [clone_eq]
  generalize fmt.copySlots s.heap.mem src dst = m at hother hinner hsame hinv ⊢
  refine ⟨hinv, ?_, fun i => (hinner i hI.pd (by simp)).trans (hI.large.entries i),
    fun r hr => ?_⟩
  · rw [Format.share_eq hI.pd, hbase]
    simp
  · -- the walk is that of `r`, or of `src` where `r` is the copy
    have hroot : ∃ r' ∈ s.roots, fmt.entry m r 0 = fmt.entry s.heap.mem r' 0 := by
      by_cases e : r = dst
      · exact ⟨src, hsrc, e ▸ hsame 0⟩
      · exact ⟨r, hr, hother 0 (hI.inv.root r hr) e⟩
    obtain ⟨r', hr', he⟩ := hroot
    have hw := hI.large.walk r' hr'
    simp only [Format.walk] at hw
    split at hw
    · rename_i hpr
      obtain ⟨-, o, ht, -⟩ := T.edge (i := 0) (hI.inv.root r' hr') (by simp)
        managed_boot.1 hpr.1
      simp only [Format.walk, he, if_pos hpr, hinner 0 ht (by simp)]
      exact hw
    · cases hw

end Clone

/-! ### A call after the clone -/

/-- The page of the call is below a top-level entry that `src` does not have. -/
def BelowAbsent (mem : Store ℕ Word) (src : ℕ) : VmmCall 64 → Prop
  | .create => True
  | .map _ virt _ _ | .unmap _ virt =>
      mem.cell (slot src (pml4Index virt)) &&& pagePresent = 0

/-- The page of the call translates already as the call leaves it. -/
def Redundant (mem : Store ℕ Word) : VmmCall 64 → Prop
  | .create => True
  | .map pd virt phys flags => ∀ v, path v = path virt → ptIndex v = ptIndex virt →
      vmmGetPhysAddr mem pd v = translate ((phys &&& frameMask) ||| flags ||| pagePresent) v
  | .unmap pd virt => ∀ v, path v = path virt → ptIndex v = ptIndex virt →
      vmmGetPhysAddr mem pd v = 0

section Call

variable {k : KernelImage} {t : BootTables k} {c c' : ℕ → Option (List (Fin 512) × ℕ)}
  {s s' s₁ s₂ : System} {a b : ℕ} {virt w : Word}

/-- A call on a page of `a` is a write of a leaf. -/
theorem step_write (hI : Inv fmt pagePool 4 Large c s) {call : VmmCall 64} (hp : Plain call)
    (hc : call.Changes a) (e : Step s call s') :
    ∃ c' h' virt w, a ∈ s.roots ∧ s' = { s with heap := h' } ∧ OutsideLarge virt ∧
      fmt.Write pagePool ⟨4, s.base, Large⟩ c s.heap a a (path virt) (ptIndex virt) w c' h' ∧
      (∀ m src, BelowAbsent m src call ↔
        fmt.present (fmt.entry m src (pml4Index virt)) = false) ∧
      ∀ m, Redundant m call ↔ ∀ v, path v = path virt → ptIndex v = ptIndex virt →
        vmmGetPhysAddr m a v = translate w v := by
  rw [Step, step_eq] at e
  cases call with
  | create => exact hc.elim
  | map pd virt phys flags =>
      obtain rfl : pd = a := hc
      obtain ⟨c', h', hpd, rfl, hw⟩ := hI.map hp.fits e
      exact ⟨c', h', virt, _, hpd, rfl, hp, hw, fun _ _ => absent_iff.symm, fun _ => Iff.rfl⟩
  | unmap pd virt =>
      obtain rfl : pd = a := hc
      obtain ⟨h', hpd, rfl, hw⟩ := hI.unmap hp.fits e
      exact ⟨c, h', virt, _, hpd, rfl, hp, hw, fun _ _ => absent_iff.symm, fun _ => Iff.rfl⟩

/-- Translations of another root that a write leaves, where its leaves are left. -/
theorem unchanged_of_lookup (hI₁ : BootInv t c s₁) (hI₂ : BootInv t c' s₂)
    (hb₁ : b ∈ s₁.roots) (hb₂ : b ∈ s₂.roots) {v : Word}
    (h : ¬ (pml4Index v = 0 ∧ pdptIndex v = 0) →
      fmt.lookup s₂.heap.mem b (path v) (ptIndex v) =
        fmt.lookup s₁.heap.mem b (path v) (ptIndex v)) :
    vmmGetPhysAddr s₂.heap.mem b v = vmmGetPhysAddr s₁.heap.mem b v := by
  by_cases hv : pml4Index v = 0 ∧ pdptIndex v = 0
  · rw [hI₂.large.getPhys hb₂ hv.1 hv.2, hI₁.large.getPhys hb₁ hv.1 hv.2]
  · rw [vmmGetPhysAddr_eq hI₂.inv.typed (hI₂.inv.root b hb₂) (OutsideLarge.managed hv),
      vmmGetPhysAddr_eq hI₁.inv.typed (hI₁.inv.root b hb₁) (OutsideLarge.managed hv), h hv]

/-- **Where the top-level entry is common**, a call on `a` leaves the translations of `b` if and
only if it was redundant. -/
theorem shared_unchanged_iff {c₂ : ℕ → Option (List (Fin 512) × ℕ)} {h' : Machine}
    (hI₁ : BootInv t c s₁) (hI₂ : BootInv t c₂ s₂)
    (hs : s₂ = { s₁ with heap := h' }) (ha : a ∈ s₁.roots) (hb : b ∈ s₁.roots)
    (hv : OutsideLarge virt)
    (hw : fmt.Write pagePool ⟨4, s₁.base, Large⟩ c s₁.heap a a (path virt) (ptIndex virt) w c' h')
    (h₁ : fmt.entry s₁.heap.mem a (pml4Index virt) = fmt.entry s₁.heap.mem b (pml4Index virt))
    (h₂ : fmt.entry s₂.heap.mem a (pml4Index virt) = fmt.entry s₂.heap.mem b (pml4Index virt)) :
    (∀ v, vmmGetPhysAddr s₂.heap.mem b v = vmmGetPhysAddr s₁.heap.mem b v) ↔
      ∀ v, path v = path virt → ptIndex v = ptIndex virt →
        vmmGetPhysAddr s₁.heap.mem a v = translate w v := by
  subst hs
  have hpage : ∀ {v}, path v = path virt → ptIndex v = ptIndex virt →
      vmmGetPhysAddr h'.mem b v = translate w v ∧
        vmmGetPhysAddr s₁.heap.mem b v = vmmGetPhysAddr s₁.heap.mem a v := fun {v} hp ht => by
    have hi : pml4Index v = pml4Index virt := (List.cons.inj hp).1
    have hroot := hw.grows (hI₁.inv.root a ha)
    refine ⟨?_, vmmGetPhysAddr_congr (by rw [hi, h₁])⟩
    have hcongr : vmmGetPhysAddr h'.mem b v = vmmGetPhysAddr h'.mem a v :=
      vmmGetPhysAddr_congr (by rw [hi]; exact h₂.symm)
    rw [hcongr, vmmGetPhysAddr_eq hw.typed hroot (hp ▸ hv.managed), hp, ht, hw.same]
  constructor
  · intro h v hp ht
    obtain ⟨hnew, hold⟩ := hpage hp ht
    exact hold.symm.trans ((h v).symm.trans hnew)
  · intro h v
    by_cases hvirt : path v = path virt ∧ ptIndex v = ptIndex virt
    · obtain ⟨hnew, hold⟩ := hpage hvirt.1 hvirt.2
      exact hnew.trans ((h v hvirt.1 hvirt.2).symm.trans hold.symm)
    · refine unchanged_of_lookup hI₁ hI₂ hb hb fun hv => ?_
      refine hw.other (hI₁.inv.root b hb) (OutsideLarge.managed hv) rfl fun e => hvirt ?_
      simpa using e

end Call

/-- `src` is cloned to `dst` in `s`, a state that `s₀` leads to, and `s₁` is reached after it; the
calls keep clear of 2 MiB entries. -/
structure CloneRun (s₀ : System) (src dst : ℕ) (s s₁ : System) : Prop where
  before : ∃ calls, Run Step s₀ calls s ∧ ∀ c ∈ calls, Plain c
  src_mem : src ∈ s.roots
  dst_mem : dst ∈ s.roots
  after : ∃ calls, Run Step (clone s src dst) calls s₁ ∧ ∀ c ∈ calls, Plain c

/-- After the clone `dst` translates as `src` does, and the call from `s₁` to `s₂` leaves the
translations of `b`. -/
def CloneMeets (s : System) (src dst : ℕ) (s₁ s₂ : System) (b : ℕ) : Prop :=
  Faithful (clone s src dst).heap.mem src dst ∧
    ∀ v, vmmGetPhysAddr s₂.heap.mem b v = vmmGetPhysAddr s₁.heap.mem b v

/-- What the later call finds: both spaces in the typing, with the top-level entries that `src` had,
and tables of their own below the others. -/
theorem CloneRun.reached {k : KernelImage} {t : BootTables k} {mem : Store ℕ Word} {bm : Bitmap}
    (h0 : t.BssZero mem) (hbm : KernelReserved k bm) {src dst : ℕ} {s s₁ : System}
    (h : CloneRun (t.boot mem bm) src dst s s₁) (hne : src ≠ dst) :
    ∃ c, BootInv t c s₁ ∧ ∀ r, r = src ∨ r = dst → r ∈ s₁.roots ∧
      ∀ i, if fmt.present (fmt.entry s.heap.mem src i) then
          fmt.entry s₁.heap.mem r i = fmt.entry s.heap.mem src i
        else fmt.Private c s₁.heap.mem r i r := by
  obtain ⟨⟨calls, hr, hplain⟩, hsrc, hdst, calls', hr', hplain'⟩ := h
  obtain ⟨c, hI, K₀⟩ := (boot_bootInv h0 hbm).run hr fun c hc => (hplain c hc).fits
  have hbase : s.base = t.pml4 := K₀.base
  have hI' := hI.clone hbase hsrc hdst hne
  obtain ⟨c₁, hI₁, K⟩ := hI'.run hr' fun c hc => (hplain' c hc).fits
  refine ⟨c₁, hI₁, fun r hr => ?_⟩
  have hroot : r ∈ (clone s src dst).roots := by
    rw [clone_roots]
    rcases hr with rfl | rfl
    · exact hsrc
    · exact hdst
  refine ⟨K.roots hroot, fun i => ?_⟩
  have hentry : fmt.entry (clone s src dst).heap.mem r i = fmt.entry s.heap.mem src i := by
    obtain ⟨h₁, h₂⟩ := clone_entry hI.inv.rootsValid hsrc hdst hne i
    rcases hr with rfl | rfl
    · exact h₁
    · exact h₂
  split
  · rename_i hpr
    exact (K.entry i (hI'.inv.root r hroot) (by simp) (by rw [hentry]; exact hpr)).trans hentry
  · rename_i habs
    refine K.priv i hroot ?_ (by decide) fun hp => ?_
    · rintro ⟨j, e⟩
      simp at e
    · rw [hentry] at hp
      exact absurd hp habs

/-- **The clone on the x86_64 target.** -/
theorem CloneRun.meets_iff {k : KernelImage} {t : BootTables k} {mem : Store ℕ Word} {bm : Bitmap}
    (h0 : t.BssZero mem) (hbm : KernelReserved k bm) {src dst a b : ℕ} {s s₁ s₂ : System}
    (h : CloneRun (t.boot mem bm) src dst s s₁) (hne : src ≠ dst)
    (hab : a = src ∧ b = dst ∨ a = dst ∧ b = src)
    {call : VmmCall 64} (hp : Plain call) (hc : call.Changes a) (e : Step s₁ call s₂) :
    CloneMeets s src dst s₁ s₂ b ↔
      BelowAbsent s.heap.mem src call ∨ Redundant s₁.heap.mem call := by
  obtain ⟨c, hI₁, hreached⟩ := h.reached h0 hbm hne
  obtain ⟨c₂, hI₂, K⟩ := hI₁.step hp.fits e
  obtain ⟨c', h', virt, w, -, hs₂, hv, hw, habsent, hredundant⟩ := step_write hI₁.inv hp hc e
  obtain ⟨calls, hr, -⟩ := h.before
  have hfaithful := run_clone_faithful h0 hbm hr h.src_mem h.dst_mem hne
  obtain ⟨ha, hentrya⟩ := hreached a (hab.imp And.left And.left)
  obtain ⟨hb, hentryb⟩ := hreached b (hab.symm.imp And.right And.right)
  have hba : b ≠ a := by
    rcases hab with ⟨rfl, rfl⟩ | ⟨rfl, rfl⟩
    · exact hne.symm
    · exact hne
  rw [CloneMeets, and_iff_right hfaithful, habsent, hredundant]
  cases hpr : fmt.present (fmt.entry s.heap.mem src (pml4Index virt)) with
  | true =>
      have hea := hentrya (pml4Index virt)
      have heb := hentryb (pml4Index virt)
      rw [if_pos hpr] at hea heb
      have hea₂ := K.entry (pml4Index virt) (hI₁.inv.root a ha) (by simp) (by rw [hea]; exact hpr)
      have heb₂ := K.entry (pml4Index virt) (hI₁.inv.root b hb) (by simp) (by rw [heb]; exact hpr)
      rw [shared_unchanged_iff hI₁ hI₂ hs₂ ha hb hv hw (hea.trans heb.symm)
        ((hea₂.trans hea).trans (heb₂.trans heb).symm)]
      simp
  | false =>
      have hpa := hentrya (pml4Index virt)
      have hpb := hentryb (pml4Index virt)
      rw [hpr, if_neg Bool.false_ne_true] at hpa hpb
      refine iff_of_true (fun v => ?_) (.inl rfl)
      refine unchanged_of_lookup hI₁ hI₂ hb (K.roots hb) fun hv => ?_
      subst hs₂
      exact hw.lookup_private hI₁.inv.typed hpa (hI₁.inv.root b hb) hba hpb
        (OutsideLarge.managed hv) rfl

end X64

namespace I386

/-- The system after `src` is cloned to `dst`. -/
def clone (s : System) (src dst : ℕ) : Option System := do
  let h ← vmmCloneAddressSpace s.heap src dst
  some { s with heap := h }

/-- `src` is cloned to `dst` in `s`, a state that `s₀` leads to, which leaves `s'`, and `s₁` is
reached after it. -/
structure CloneRun (s₀ : System) (src dst : ℕ) (s s' s₁ : System) : Prop where
  before : ∃ calls, Run Step s₀ calls s
  src_mem : src ∈ s.roots
  dst_mem : dst ∈ s.roots
  cloned : clone s src dst = some s'
  after : ∃ calls, Run Step s' calls s₁

/-- After the clone `dst` translates as `src` does, and the call from `s₁` to `s₂` leaves the
translations of `b`. -/
def CloneMeets (s' : System) (src dst : ℕ) (s₁ s₂ : System) (b : ℕ) : Prop :=
  (∀ v, vmmGetPhysAddr s'.heap dst v = vmmGetPhysAddr s'.heap src v) ∧
  ∀ v, vmmGetPhysAddr s₂.heap b v = vmmGetPhysAddr s₁.heap b v

/-- Where `src` has no page table, `dst` translates nothing. -/
def NothingBeside (s : System) (src dst : ℕ) : Prop :=
  ∀ v, s.heap.mem.cell (slot src (pdIdx v)) &&& pagePresent = 0 →
    vmmGetPhysAddr s.heap dst v = some 0

/-- **The clone on the i386 target.** -/
theorem CloneRun.meets_iff {h h' : Machine} {pd : ℕ} (hlow : LowReserved h.pool)
    (e : initPaging h = some (pd, h')) {src dst a b : ℕ} {s s' s₁ s₂ : System}
    (hrun : CloneRun ⟨h', pd, []⟩ src dst s s' s₁) (hne : src ≠ dst)
    (hab : a = src ∧ b = dst ∨ a = dst ∧ b = src) {call : VmmCall 32} (hc : call.Changes a)
    (hcall : Step s₁ call s₂) : CloneMeets s' src dst s₁ s₂ b ↔ NothingBeside s src dst := by
  obtain ⟨⟨calls, hr⟩, hsrc, hdst, hclone, calls', hr'⟩ := hrun
  obtain ⟨h₀, hz, hr₀⟩ := initPaging_run hlow e
  obtain ⟨c, hI, -⟩ := inv_run (hr₀.trans hr) hz.inv
  have hL₀ : Leaves ⟨h₀, pd, []⟩ := fun r hr k l => .inl <| by
    obtain rfl : r = pd := by simpa [Spaces.roots] using hr
    exact Format.lookup_zeroed hz.zero [k] l
  have hL := hL₀.run (hr₀.trans hr) hz.inv
  simp only [clone, Option.bind_eq_bind, Option.bind_eq_some_iff, Option.some.injEq] at hclone
  obtain ⟨h₁, hclone, rfl⟩ := hclone
  obtain ⟨c', hC⟩ := vmmCloneAddressSpace_cloned hI hsrc hdst hne hclone
  have hA := hC.apart hI hsrc hne
  rw [CloneMeets, hC.faithful_iff hI hL hsrc hdst hne, NothingBeside]
  refine and_iff_left fun v => ?_
  rcases hab with ⟨rfl, rfl⟩ | ⟨rfl, rfl⟩
  · exact hA.independent hC.inv hsrc hdst hne hr' hc hcall v
  · exact hA.symm.independent hC.inv hdst hsrc (Ne.symm hne) hr' hc hcall v

end I386

/-- **When a clone is faithful and leaves its spaces independent.**  In a run that clones `src` to
`dst`, with `a` and `b` the two spaces, and for a later call on `a`:
on the x86_64 target the clone is faithful, and where the calls keep clear of 2 MiB entries, the
call leaves the translations of `b` if and only if it is below a top-level entry that `src` did not
have, or leaves its page as it reads already;
on the i386 target both hold if and only if `dst` translated nothing where `src` has no page
table. -/
theorem clone_meets_iff {src dst a b : ℕ} (hne : src ≠ dst)
    (hab : a = src ∧ b = dst ∨ a = dst ∧ b = src) :
    (∀ (k : KernelImage) (t : X64.BootTables k) mem bm, t.BssZero mem → X64.KernelReserved k bm →
      ∀ s,
        (∀ calls, Run X64.Step (t.boot mem bm) calls s → src ∈ s.roots → dst ∈ s.roots →
          X64.Faithful (X64.clone s src dst).heap.mem src dst) ∧
        ∀ s₁ s₂ call, X64.CloneRun (t.boot mem bm) src dst s s₁ → X64.Plain call →
          call.Changes a → X64.Step s₁ call s₂ →
          (X64.CloneMeets s src dst s₁ s₂ b ↔
            X64.BelowAbsent s.heap.mem src call ∨ X64.Redundant s₁.heap.mem call)) ∧
    (∀ h pd h', LowReserved h.pool → I386.initPaging h = some (pd, h') →
      ∀ s s' s₁ s₂ call, I386.CloneRun ⟨h', pd, []⟩ src dst s s' s₁ → call.Changes a →
        I386.Step s₁ call s₂ →
        (I386.CloneMeets s' src dst s₁ s₂ b ↔ I386.NothingBeside s src dst)) :=
  ⟨fun _ _ _ _ h0 hbm _ =>
    ⟨fun _ hr hsrc hdst => X64.run_clone_faithful h0 hbm hr hsrc hdst hne,
      fun _ _ _ hrun hp hc e => hrun.meets_iff h0 hbm hne hab hp hc e⟩,
    fun _ _ _ hlow e _ _ _ _ _ hrun hc hcall => hrun.meets_iff hlow e hne hab hc hcall⟩

theorem clone_meets_own_entry :
    ∃ s₁ s₂ s₃, X64.Step X64.bootSystem .create s₁ ∧ X64.Step s₁ .create s₂ ∧
      X64.Step (X64.clone s₂ 0x200000 0x201000) (.map 0x200000 0x8000000000 0x1000000 7) s₃ ∧
      X64.CloneMeets s₂ 0x200000 0x201000 (X64.clone s₂ 0x200000 0x201000) s₃ 0x201000 := by
  have h : (do
      let s₁ ← X64.step X64.bootSystem .create
      let s₂ ← X64.step s₁ .create
      let _ ← X64.step (X64.clone s₂ 0x200000 0x201000) (.map 0x200000 0x8000000000 0x1000000 7)
      some (s₂.made,
        s₂.heap.mem.cell (X64.slot 0x200000 (X64.pml4Index 0x8000000000)) &&& pagePresent)) =
      some ([0x201000, 0x200000], 0) := by decide +kernel
  simp only [Option.bind_eq_bind, Option.bind_eq_some_iff, Option.some.injEq, Prod.mk.injEq] at h
  obtain ⟨s₁, h₁, s₂, h₂, s₃, h₃, hmade, habsent⟩ := h
  have hrun : X64.CloneRun X64.bootSystem 0x200000 0x201000 s₂
      (X64.clone s₂ 0x200000 0x201000) :=
    { before := ⟨[.create, .create], .more h₁ (.one h₂), fun c hc => by
        obtain rfl : c = .create := by simpa using hc
        exact trivial⟩
      src_mem := by simp [Spaces.roots, hmade]
      dst_mem := by simp [Spaces.roots, hmade]
      after := ⟨[], .refl _, fun _ h => absurd h List.not_mem_nil⟩ }
  exact ⟨s₁, s₂, s₃, h₁, h₂, h₃, (((clone_meets_iff (by decide) (.inl ⟨rfl, rfl⟩)).1 _
    X64.bootTables _ _ (fun _ => ⟨rfl, rfl⟩) X64.bootBitmap_kernelReserved _).2 _ _
    (.map 0x200000 0x8000000000 0x1000000 7) hrun (show X64.OutsideLarge _ by decide) rfl
    h₃).mpr (.inl habsent)⟩

/-- A page unmapped in the source after the clone is unmapped in the clone too. -/
theorem unmapped_in_clone :
    ∃ s₁ s₂ s₃ s₄, X64.Step X64.bootSystem .create s₁ ∧ X64.Step s₁ .create s₂ ∧
      s₂.made = [0x201000, 0x200000] ∧
      X64.Step s₂ (.map 0x200000 0x8000000000 0x1000000 7) s₃ ∧
      X64.Step (X64.clone s₃ 0x200000 0x201000) (.unmap 0x200000 0x8000000000) s₄ ∧
      X64.vmmGetPhysAddr (X64.clone s₃ 0x200000 0x201000).heap.mem 0x201000 0x8000000000 =
        0x1000000 ∧
      X64.vmmGetPhysAddr s₄.heap.mem 0x201000 0x8000000000 = 0 := by
  have h : (do
      let s₁ ← X64.step X64.bootSystem .create
      let s₂ ← X64.step s₁ .create
      let s₃ ← X64.step s₂ (.map 0x200000 0x8000000000 0x1000000 7)
      let s₄ ← X64.step (X64.clone s₃ 0x200000 0x201000) (.unmap 0x200000 0x8000000000)
      some (s₂.made,
        X64.vmmGetPhysAddr (X64.clone s₃ 0x200000 0x201000).heap.mem 0x201000 0x8000000000,
        X64.vmmGetPhysAddr s₄.heap.mem 0x201000 0x8000000000)) =
      some ([0x201000, 0x200000], 0x1000000, 0) := by decide +kernel
  simp only [Option.bind_eq_bind, Option.bind_eq_some_iff, Option.some.injEq, Prod.mk.injEq] at h
  obtain ⟨s₁, h₁, s₂, h₂, s₃, h₃, s₄, h₄, hmade, hold, hnew⟩ := h
  exact ⟨s₁, s₂, s₃, s₄, h₁, h₂, hmade, h₃, h₄, hold, hnew⟩

end ZeptoOS
