import ZeptoOS.Paging.FiniteMap

/-!
# Paging — Isolation

What a space made by `vmm_create_address_space` shares with the others.  It starts as a copy of
`kernel_pd`, and so shares every table `kernel_pd` had when it was made: a call on it below such a
top-level entry changes what the others translate (`shared_table_mapped`).  Below an entry that
`kernel_pd` did not have, its tables are its own, and calls there change no translation of any
other space or of `kernel_pd` (`spaces_isolated`).

On the x86_64 target the 2 MiB entries are outside the typing; `LargeKept` says that they stay, and
are what every root reads below 1 GiB.
-/

namespace ZeptoOS
open Lib

namespace X64

section Large

variable {k : KernelImage} {t : BootTables k} {c : ℕ → Option (List (Fin 512) × ℕ)}
  {s s' : System}

/-- Every root leads to the boot page directory, which is as the boot code left it. -/
structure LargeKept (t : BootTables k) (s : System) : Prop where
  entries : ∀ i, fmt.entry s.heap.mem t.pd i = BootTables.large i
  walk : ∀ r ∈ s.roots, fmt.walk s.heap.mem r [0, 0] = some t.pd

/-- The typing of a system that started from the boot tables. -/
structure BootInv (t : BootTables k) (c : ℕ → Option (List (Fin 512) × ℕ)) (s : System) :
    Prop where
  inv : Inv fmt pagePool 4 Large c s
  pd : c t.pd = some ([0, 0], t.pml4)
  large : LargeKept t s

theorem large_bits (i : Fin 512) :
    ¬ BootTables.large i &&& pagePresent = 0 ∧ BootTables.large i &&& 0x80 ≠ 0 := by
  refine ⟨fun h => ?_, fun h => ?_⟩
  · have hbit := congrArg (BitVec.getLsbD · 0) h
    simp [BootTables.large] at hbit
  · have hbit := congrArg (BitVec.getLsbD · 7) h
    simp [BootTables.large] at hbit

theorem boot_bootInv {mem : Store ℕ Word} {b : Bitmap} (h0 : t.BssZero mem)
    (hb : KernelReserved k b) : BootInv t (bootTyping t) (t.boot mem b) where
  inv := boot_inv h0 hb
  pd := bootTyping_pd
  large :=
    { entries := fun i => by
        simp only [BootTables.boot]
        exact setup_pd i
      walk := fun r hr => by
        obtain rfl : r = t.pml4 := by simpa [Spaces.roots, BootTables.boot] using hr
        have hp := BootTables.valid (t := t) (p := t.pdpt) (.inr (.inl rfl))
        have hd := BootTables.valid (t := t) (p := t.pd) (.inr (.inr rfl))
        simp only [BootTables.boot, Format.walk, setup_pml4 h0, if_true, fmt.present_link hp,
          fmt.large_link hp, fmt.target_link hp, setup_pdpt h0, fmt.present_link hd,
          fmt.large_link hd, fmt.target_link hd, and_self] }

theorem managed_boot {base : ℕ} : (⟨4, base, Large⟩ : Plan (Fin 512) ℕ).Managed [] [0, 0] := by
  refine ⟨?_, ?_, trivial⟩ <;>
  · rintro ⟨i, e⟩
    simp at e

theorem toOp_create_fits (n : ℕ) (Foreign : List (Fin 512) → Prop) :
    (toOp .create).Fits n Foreign := trivial

/-- The 2 MiB entries stay under every operation, and a new root has them. -/
theorem BootInv.step (hI : BootInv t c s) {call : VmmCall 64} (hf : (toOp call).Fits 4 Large)
    (h : Step s call s') : ∃ c', BootInv t c' s' ∧ Kept fmt 4 Large c s c' s' := by
  rw [Step, step_eq] at h
  have hkept : ∀ {c' s'}, Kept fmt 4 Large c s c' s' →
      (∀ i, fmt.entry s'.heap.mem t.pd i = BootTables.large i) ∧
      ∀ r ∈ s.roots, fmt.walk s'.heap.mem r [0, 0] = some t.pd := fun K => by
    refine ⟨fun i => ?_, fun r hr => hI.inv.walk_keeps K (hI.inv.root r hr) managed_boot
      (by simp) (hI.large.walk r hr)⟩
    refine (K.entry i hI.pd (by simp) ?_).trans (hI.large.entries i)
    rw [hI.large.entries i]
    exact present_iff.mpr (large_bits i).1
  cases call with
  | create =>
      obtain ⟨c', q, h', rfl, hC, hI', K⟩ := hI.inv.create_inv h
      obtain ⟨hentries, hwalk⟩ := hkept K
      refine ⟨c', ⟨hI', K.grows hI.pd, hentries, fun r hr => ?_⟩, K⟩
      have hbase : s.base ∈ s.roots := List.mem_cons_self
      simp only [Spaces.roots, List.mem_cons] at hr
      rcases hr with rfl | rfl | hr
      · exact hwalk _ hbase
      · -- the new root has the first entry of `kernel_pd`
        refine (Format.walk_congr_head ?_ [0]).trans (hwalk _ hbase)
        exact (hC.same 0).trans (hC.frame 0 (hI.inv.root _ hbase)).symm
      · exact hwalk r (List.mem_cons_of_mem _ hr)
  | map pd virt phys flags =>
      obtain ⟨c', h', -, rfl, hw⟩ := hI.inv.map hf h
      obtain ⟨hI', K⟩ := hI.inv.write hw
      exact ⟨c', ⟨hI', K.grows hI.pd, (hkept K).1, (hkept K).2⟩, K⟩
  | unmap pd virt =>
      obtain ⟨h', -, rfl, hw⟩ := hI.inv.unmap hf h
      obtain ⟨hI', K⟩ := hI.inv.write hw
      exact ⟨c, ⟨hI', K.grows hI.pd, (hkept K).1, (hkept K).2⟩, K⟩

theorem BootInv.run {calls : List (VmmCall 64)} (hr : Run Step s calls s')
    (hf : ∀ call ∈ calls, (toOp call).Fits 4 Large) {c : ℕ → Option (List (Fin 512) × ℕ)}
    (hI : BootInv t c s) : ∃ c', BootInv t c' s' ∧ Kept fmt 4 Large c s c' s' := by
  induction hr generalizing c with
  | refl => exact ⟨c, hI, .refl _ _⟩
  | more h _ ih =>
      obtain ⟨c₁, hI₁, K₁⟩ := hI.step (hf _ List.mem_cons_self) h
      obtain ⟨c', hI', K'⟩ := ih (fun call hc => hf call (List.mem_cons_of_mem _ hc)) hI₁
      exact ⟨c', hI', K₁.trans K'⟩

/-- Below 1 GiB every root translates by the boot page directory. -/
theorem LargeKept.getPhys (hL : LargeKept t s) {r : ℕ} (hr : r ∈ s.roots) {v : Word}
    (h₁ : pml4Index v = 0) (h₂ : pdptIndex v = 0) :
    vmmGetPhysAddr s.heap.mem r v =
      (BootTables.large (pdIndex v) &&& largeMask) ||| (v &&& 0x1FFFFF) := by
  have hw := hL.walk r hr
  simp only [Format.walk] at hw
  split at hw
  · rename_i hp₁
    split at hw
    · rename_i hp₂
      have hpd : tableOf (s.heap.mem.cell (slot (tableOf (s.heap.mem.cell (slot r 0))) 0)) = t.pd :=
        Option.some.inj hw
      have hpde : s.heap.mem.cell (slot t.pd (pdIndex v)) = BootTables.large (pdIndex v) :=
        hL.entries _
      have hp₁ : ¬ s.heap.mem.cell (slot r 0) &&& pagePresent = 0 := present_iff.mp hp₁.1
      have hp₂ : ¬ s.heap.mem.cell (slot (tableOf (s.heap.mem.cell (slot r 0))) 0) &&&
          pagePresent = 0 := present_iff.mp hp₂.1
      simp only [vmmGetPhysAddr, h₁, h₂, hpd, hpde]
      rw [if_neg hp₁, if_neg hp₂, if_neg (large_bits _).1, if_pos (large_bits _).2]
    · cases hw
  · cases hw

/-- The call is on the space `a`, below a top-level entry that `kernel_pd` does not have in `s`. -/
def OnOwn (s : System) (a : ℕ) : VmmCall 64 → Prop
  | .create => False
  | .map pd virt _ _ | .unmap pd virt =>
      pd = a ∧ s.heap.mem.cell (slot s.base (pml4Index virt)) &&& pagePresent = 0

/-- `s₄` is reached from `s₃` by calls on the space `a` below top-level entries that `kernel_pd` did
not have when `a` was made, in a run from `s₀` whose other calls keep clear of 2 MiB entries. -/
def OwnCalls (s₀ : System) (a : ℕ) (s₃ s₄ : System) : Prop :=
  ∃ calls₁ s₁ s₂ calls₂ calls₃,
    Run Step s₀ calls₁ s₁ ∧ (∀ c ∈ calls₁, Plain c) ∧
    Step s₁ .create s₂ ∧ s₂.made = a :: s₁.made ∧
    Run Step s₂ calls₂ s₃ ∧ (∀ c ∈ calls₂, Plain c) ∧
    Run Step s₃ calls₃ s₄ ∧ ∀ c ∈ calls₃, OnOwn s₁ a c

/-- The operation of a call on an own part of `a` is on an index `a` did not inherit. -/
theorem OnOwn.onPrivate {s₁ : System} (hL : LargeKept t s₁) {a : ℕ}
    (hpriv : ∀ i, fmt.present (fmt.entry s₁.heap.mem s₁.base i) = false →
      fmt.Private c s.heap.mem a i a) {call : VmmCall 64} (h : OnOwn s₁ a call) :
    (toOp call).OnPrivate fmt 4 Large c s a := by
  have habsent : ∀ {virt}, s₁.heap.mem.cell (slot s₁.base (pml4Index virt)) &&& pagePresent = 0 →
      fmt.present (fmt.entry s₁.heap.mem s₁.base (pml4Index virt)) = false :=
    fun h => absent_iff.mpr h
  have hmanaged : ∀ {virt},
      s₁.heap.mem.cell (slot s₁.base (pml4Index virt)) &&& pagePresent = 0 →
      (⟨4, a, Large⟩ : Plan (Fin 512) ℕ).Managed [] (path virt) := fun {virt} h => by
    refine OutsideLarge.managed fun h₀ => ?_
    have hw := hL.walk s₁.base List.mem_cons_self
    rw [← h₀.1, Format.walk_absent (habsent h)] at hw
    cases hw
  cases call with
  | create => exact h.elim
  | map pd virt phys flags =>
      exact ⟨h.1, ⟨Plan.managed_base (hmanaged h.2), rfl⟩, _, _, rfl, hpriv _ (habsent h.2)⟩
  | unmap pd virt =>
      exact ⟨h.1, ⟨Plan.managed_base (hmanaged h.2), rfl⟩, _, _, rfl, hpriv _ (habsent h.2)⟩

/-- **Isolation on the x86_64 target.** -/
theorem OwnCalls.isolated {mem : Store ℕ Word} {b : Bitmap} (h0 : t.BssZero mem)
    (hb : KernelReserved k b) {a r : ℕ} {s₃ s₄ : System}
    (h : OwnCalls (t.boot mem b) a s₃ s₄) (hr : r ∈ s₃.roots) (hne : r ≠ a) (v : Word) :
    vmmGetPhysAddr s₄.heap.mem r v = vmmGetPhysAddr s₃.heap.mem r v := by
  obtain ⟨calls₁, s₁, s₂, calls₂, calls₃, hr₁, hp₁, hcreate, ha, hr₂, hp₂, hr₃, hp₃⟩ := h
  obtain ⟨c₁, hI₁, -⟩ := (boot_bootInv h0 hb).run hr₁ fun c hc => (hp₁ c hc).fits
  obtain ⟨c₂', hI₂', -⟩ := hI₁.step (toOp_create_fits 4 Large) hcreate
  obtain ⟨c₂, a', hI₂, ha', -, -, hpriv⟩ :=
    hI₁.inv.private_created ((step_eq s₁ .create).symm.trans hcreate)
  obtain rfl : a' = a := (List.cons.inj (ha'.symm.trans ha)).1
  have ha₂ : a' ∈ s₂.made := ha' ▸ List.mem_cons_self
  -- what is private when `a` is made is private when its calls begin
  obtain ⟨c₃, hI₃, K₃⟩ := inv_run hr₂ (fun c hc => (hp₂ c hc).fits) hI₂
  obtain ⟨c₃', hI₃', -⟩ := hI₂'.run hr₂ fun c hc => (hp₂ c hc).fits
  have hops : ∀ op ∈ calls₃.map toOp, op.OnPrivate fmt 4 Large c₃ s₃ a' := fun op hop => by
    obtain ⟨call, hcall, rfl⟩ := List.mem_map.mp hop
    refine (hp₃ call hcall).onPrivate hI₁.large fun i hi => ?_
    refine K₃.priv i (List.mem_cons_of_mem _ ha₂) ?_ (by decide) (hpriv i hi)
    rintro ⟨j, e⟩
    simp at e
  have hfits : ∀ c ∈ calls₃, (toOp c).Fits 4 Large :=
    fun c hc => (hops _ (List.mem_map_of_mem hc)).fits
  have hrun : Run (fun s op s' => s.step fmt pagePool op = some s') s₃ (calls₃.map toOp) s₄ :=
    hr₃.map (P := fun _ => True) (I := fun _ => True)
      (fun {s l s'} _ _ h => ⟨(step_eq s l).symm.trans h, trivial⟩) (fun _ _ => trivial) trivial
  obtain ⟨c₄, hI₄, K₄⟩ := hI₃'.run hr₃ hfits
  by_cases hv : pml4Index v = 0 ∧ pdptIndex v = 0
  · rw [hI₄.large.getPhys (K₄.roots hr) hv.1 hv.2, hI₃'.large.getPhys hr hv.1 hv.2]
  · obtain ⟨new, hmade⟩ := K₃.made
    have ha₃ : a' ∈ s₃.made := hmade ▸ List.mem_append_right _ ha₂
    have hm : ∀ {b : ℕ}, (⟨4, b, Large⟩ : Plan (Fin 512) ℕ).Managed [] (path v) :=
      OutsideLarge.managed hv
    rw [vmmGetPhysAddr_eq hI₄.inv.typed (hI₄.inv.root r (K₄.roots hr)) hm,
      vmmGetPhysAddr_eq hI₃.typed (hI₃.root r hr) hm,
      hI₃.isolated_lookup hrun ha₃ hops hr hne hm (by simp [path])]

end Large

end X64

namespace I386

/-- The call is on the space `a`, below a top-level entry that `kernel_pd` does not have in `s`. -/
def OnOwn (s : System) (a : ℕ) : VmmCall 32 → Prop
  | .create => False
  | .map pd virt _ _ | .unmap pd virt =>
      pd = a ∧ s.heap.mem.cell (slot s.base (pdIdx virt)) &&& pagePresent = 0

/-- `s₄` is reached from `s₃` by calls on the space `a` below top-level entries that `kernel_pd` did
not have when `a` was made, in a run from `s₀`. -/
def OwnCalls (s₀ : System) (a : ℕ) (s₃ s₄ : System) : Prop :=
  ∃ calls₁ s₁ s₂ calls₂ calls₃,
    Run Step s₀ calls₁ s₁ ∧ Step s₁ .create s₂ ∧ s₂.made = a :: s₁.made ∧
    Run Step s₂ calls₂ s₃ ∧ Run Step s₃ calls₃ s₄ ∧ ∀ c ∈ calls₃, OnOwn s₁ a c

theorem OnOwn.onPrivate {c : ℕ → Option (List (Fin 1024) × ℕ)} {s₁ s : System} {a : ℕ}
    (hpriv : ∀ i, fmt.present (fmt.entry s₁.heap.mem s₁.base i) = false →
      fmt.Private c s.heap.mem a i a) {call : VmmCall 32} (h : OnOwn s₁ a call) :
    (toOp call).OnPrivate fmt 2 Large c s a := by
  have habsent : ∀ {virt}, s₁.heap.mem.cell (slot s₁.base (pdIdx virt)) &&& pagePresent = 0 →
      fmt.present (fmt.entry s₁.heap.mem s₁.base (pdIdx virt)) = false :=
    fun h => absent_iff.mpr h
  cases call with
  | create => exact h.elim
  | map pd virt phys flags =>
      exact ⟨h.1, ⟨managed_path virt, rfl⟩, _, _, rfl, hpriv _ (habsent h.2)⟩
  | unmap pd virt =>
      exact ⟨h.1, ⟨managed_path virt, rfl⟩, _, _, rfl, hpriv _ (habsent h.2)⟩

/-- **Isolation on the i386 target.** -/
theorem OwnCalls.isolated {h h' : Machine} {pd : ℕ} (hlow : LowReserved h.pool)
    (e : initPaging h = some (pd, h')) {a r : ℕ} {s₃ s₄ : System}
    (hown : OwnCalls ⟨h', pd, []⟩ a s₃ s₄) (hr : r ∈ s₃.roots) (hne : r ≠ a) (v : Word) :
    vmmGetPhysAddr s₄.heap r v = vmmGetPhysAddr s₃.heap r v := by
  obtain ⟨h₀, hz, hr₀⟩ := initPaging_run hlow e
  obtain ⟨c₀, hI₀, -⟩ := inv_run hr₀ hz.inv
  obtain ⟨calls₁, s₁, s₂, calls₂, calls₃, hr₁, hcreate, ha, hr₂, hr₃, hp₃⟩ := hown
  obtain ⟨c₁, hI₁, -⟩ := inv_run hr₁ hI₀
  obtain ⟨c₂, a', hI₂, ha', -, -, hpriv⟩ :=
    hI₁.private_created ((step_eq hI₁ .create).symm.trans hcreate)
  obtain rfl : a' = a := (List.cons.inj (ha'.symm.trans ha)).1
  have ha₂ : a' ∈ s₂.made := ha' ▸ List.mem_cons_self
  obtain ⟨c₃, hI₃, K₃⟩ := inv_run hr₂ hI₂
  have hops : ∀ op ∈ calls₃.map toOp, op.OnPrivate fmt 2 Large c₃ s₃ a' := fun op hop => by
    obtain ⟨call, hcall, rfl⟩ := List.mem_map.mp hop
    exact (hp₃ call hcall).onPrivate fun i hi =>
      K₃.priv i (List.mem_cons_of_mem _ ha₂) id (by decide) (hpriv i hi)
  have hrun : Run (fun s op s' => s.step fmt pagePool op = some s') s₃ (calls₃.map toOp) s₄ :=
    hr₃.map (P := fun _ => True) (I := fun s => ∃ c, Inv fmt pagePool 2 Large c s)
      (fun {s l s'} _ ⟨c, hI⟩ h => by
        have h' := (step_eq hI l).symm.trans h
        obtain ⟨c', hI', -⟩ := hI.step (toOp_fits l) h'
        exact ⟨h', c', hI'⟩) (fun _ _ => trivial) ⟨c₃, hI₃⟩
  obtain ⟨c₄, hI₄, K₄⟩ := inv_run hr₃ hI₃
  obtain ⟨new, hmade⟩ := K₃.made
  have ha₃ : a' ∈ s₃.made := hmade ▸ List.mem_append_right _ ha₂
  rw [vmmGetPhysAddr_eq hI₄.typed (hI₄.root r (K₄.roots hr)),
    vmmGetPhysAddr_eq hI₃.typed (hI₃.root r hr),
    hI₃.isolated_lookup hrun ha₃ hops hr hne (managed_path v) (by simp [path])]

end I386

/-- **Spaces are isolated where they share nothing.**  On both targets, in a run from the boot
tables or from `init_paging`: calls on a space, below top-level entries that `kernel_pd` did not
have when the space was made, change no translation of `kernel_pd` or of any other space. -/
theorem spaces_isolated :
    (∀ (k : KernelImage) (t : X64.BootTables k) mem b, t.BssZero mem → X64.KernelReserved k b →
      ∀ a s₃ s₄, X64.OwnCalls (t.boot mem b) a s₃ s₄ → ∀ r ∈ s₃.roots, r ≠ a → ∀ v,
        X64.vmmGetPhysAddr s₄.heap.mem r v = X64.vmmGetPhysAddr s₃.heap.mem r v) ∧
    (∀ h pd h', LowReserved h.pool → I386.initPaging h = some (pd, h') →
      ∀ a s₃ s₄, I386.OwnCalls ⟨h', pd, []⟩ a s₃ s₄ → ∀ r ∈ s₃.roots, r ≠ a → ∀ v,
        I386.vmmGetPhysAddr s₄.heap r v = I386.vmmGetPhysAddr s₃.heap r v) :=
  ⟨fun _ _ _ _ h0 hb _ _ _ hown _ hr hne v => hown.isolated h0 hb hr hne v,
    fun _ _ _ hlow e _ _ _ hown _ hr hne v => hown.isolated hlow e hr hne v⟩

theorem spaces_isolated_own_table :
    ∃ a s₂ s₃, X64.Step X64.bootSystem .create s₂ ∧ s₂.made = [a] ∧
      X64.Step s₂ (.map a 0x8000000000 0x1000000 7) s₃ ∧ 0x101000 ≠ a ∧
      X64.vmmGetPhysAddr s₃.heap.mem 0x101000 0x8000000000 =
        X64.vmmGetPhysAddr s₂.heap.mem 0x101000 0x8000000000 := by
  obtain ⟨a, s₂, hcreate, hmade, hB⟩ := X64.step_create_some (s := X64.bootSystem)
    X64.bootBitmap_has
  have ha : a ∈ s₂.made := hmade ▸ List.mem_cons_self
  obtain ⟨s₃, hmap⟩ := X64.step_map_some (List.mem_cons_of_mem _ ha)
    hB.pred.pred.pred.pred 0x8000000000 0x1000000 7
  have h0 : X64.bootTables.BssZero ⟨fun _ => 0, []⟩ := fun _ => ⟨rfl, rfl⟩
  obtain ⟨c₂, hI₂, K₂⟩ := (X64.boot_bootInv h0 X64.bootBitmap_kernelReserved).step
    (X64.toOp_create_fits 4 X64.Large) hcreate
  have hbase : s₂.base = 0x101000 := K₂.base
  have hne : 0x101000 ≠ a := fun e => hI₂.inv.apart (by rw [hbase, e]; exact ha)
  have hown : X64.OwnCalls X64.bootSystem a s₂ s₃ :=
    ⟨[], _, s₂, [], [_], .refl _, fun _ h => absurd h List.not_mem_nil, hcreate, hmade, .refl _,
      fun _ h => absurd h List.not_mem_nil, .one hmap, fun c hc => by
        obtain rfl := List.mem_singleton.mp hc
        exact ⟨rfl, by decide +kernel⟩⟩
  exact ⟨a, s₂, s₃, hcreate, hmade, hmap, hne,
    spaces_isolated.1 _ X64.bootTables _ _ h0 X64.bootBitmap_kernelReserved a s₂ s₃ hown
      0x101000 (K₂.roots List.mem_cons_self) hne _⟩

/-- In a run from the boot tables, mapping a page of one space at 1 GiB maps it in the other: the
two share the PDPT of `kernel_pd`. -/
theorem shared_table_mapped :
    ∃ s₁ s₂ s₃, X64.Step X64.bootSystem .create s₁ ∧ X64.Step s₁ .create s₂ ∧
      s₂.made = [0x201000, 0x200000] ∧
      X64.Step s₂ (.map 0x200000 0x40000000 0x1000000 7) s₃ ∧
      X64.vmmGetPhysAddr s₂.heap.mem 0x201000 0x40000000 = 0 ∧
      X64.vmmGetPhysAddr s₃.heap.mem 0x201000 0x40000000 = 0x1000000 := by
  have h : (do
      let s₁ ← X64.step X64.bootSystem .create
      let s₂ ← X64.step s₁ .create
      let s₃ ← X64.step s₂ (.map 0x200000 0x40000000 0x1000000 7)
      some (s₂.made, X64.vmmGetPhysAddr s₂.heap.mem 0x201000 0x40000000,
        X64.vmmGetPhysAddr s₃.heap.mem 0x201000 0x40000000)) =
      some ([0x201000, 0x200000], 0, 0x1000000) := by decide +kernel
  simp only [Option.bind_eq_bind, Option.bind_eq_some_iff, Option.some.injEq, Prod.mk.injEq] at h
  obtain ⟨s₁, h₁, s₂, h₂, s₃, h₃, hmade, hold, hnew⟩ := h
  exact ⟨s₁, s₂, s₃, h₁, h₂, hmade, h₃, hold, hnew⟩

end ZeptoOS
