import ZeptoOS.Paging.FiniteMap

/-!
# Paging — Targets

The two targets behind one interface.  Calls with 32-bit numbers, made on an empty space of each
target, leave the same words in the leaves (`I386.leaf_run`, `X64.leaf_run`).  What
`vmm_get_phys_addr` reports differs all the same: the i386 one returns the frame and drops the
offset within the page (`translations_agree_iff`).
-/

namespace ZeptoOS
open Lib

/-- A call on a space, with 32-bit numbers. -/
inductive PageCall where
  | map (virt phys flags : BitVec 32)
  | unmap (virt : BitVec 32)
deriving DecidableEq

namespace PageCall

/-- The call on the space `pd` of a target. -/
def on (w pd : ℕ) : PageCall → VmmCall w
  | map virt phys flags => .map pd (virt.setWidth w) (phys.setWidth w) (flags.setWidth w)
  | unmap virt => .unmap pd (virt.setWidth w)

theorem on_on (w pd : ℕ) (c : PageCall) : (c.on w pd).On pd := by
  cases c <;> rfl

def virt : PageCall → BitVec 32
  | map virt _ _ | unmap virt => virt

def isMap : PageCall → Bool
  | map _ _ _ => true
  | unmap _ => false

/-- The word the call leaves in the leaf of its page. -/
def leaf : PageCall → BitVec 32
  | map _ phys flags => (phys &&& 0xFFFFF000) ||| flags ||| pagePresent
  | unmap _ => 0

/-- The last of the calls that is about the page of `v`. -/
def last (v : BitVec 32) (calls : List PageCall) : Option PageCall :=
  calls.reverse.find? fun c => SamePage c.virt v

/-- The page of `v` is mapped after the calls. -/
def Mapped (v : BitVec 32) (calls : List PageCall) : Prop :=
  ∃ c, last v calls = some c ∧ c.isMap = true

/-- The word in the leaf of the page of `v` after the calls. -/
def leafAfter (v : BitVec 32) (calls : List PageCall) : BitVec 32 :=
  ((last v calls).map leaf).getD 0

theorem findSome?_leaf {V : Type*} (f : BitVec 32 → V) (v : BitVec 32) (calls : List PageCall) :
    (calls.reverse.findSome? fun c => if SamePage c.virt v then some (f c.leaf) else none).getD
      (f 0) = f (leafAfter v calls) := by
  have hguard : (fun c : PageCall => if SamePage c.virt v then some (f c.leaf) else none) =
      fun c => (Option.guard (fun c : PageCall => SamePage c.virt v) c).map (f ∘ leaf) := by
    funext c
    by_cases h : SamePage c.virt v <;> simp [Option.guard, h]
  have hmap := List.map_findSome? (f := Option.guard fun c : PageCall => decide (SamePage c.virt v))
    (g := f ∘ leaf) (l := calls.reverse)
  rw [hguard, leafAfter, last, List.find?_eq_findSome?_guard]
  change (calls.reverse.findSome? (Option.map (f ∘ leaf) ∘ _)).getD (f 0) = _
  rw [← hmap]
  cases calls.reverse.findSome? (Option.guard fun c => decide (SamePage c.virt v)) <;> rfl

/-- A leaf that is not mapped is empty, and one that is has the present bit. -/
theorem leafAfter_eq {v : BitVec 32} {calls : List PageCall} (h : ¬ Mapped v calls) :
    leafAfter v calls = 0 := by
  rw [leafAfter]
  cases hc : last v calls with
  | none => rfl
  | some c =>
      cases c with
      | unmap virt => rfl
      | map virt phys flags => exact absurd ⟨_, hc, rfl⟩ h

theorem leafAfter_present {v : BitVec 32} {calls : List PageCall} (h : Mapped v calls) :
    leafAfter v calls &&& pagePresent ≠ 0 := by
  obtain ⟨c, hc, hmap⟩ := h
  rw [leafAfter, hc]
  cases c with
  | unmap virt => cases hmap
  | map virt phys flags => exact present_or (by decide)

end PageCall

namespace I386

theorem word_leaf (pd : ℕ) (c : PageCall) (v : Word) :
    (toOp (c.on 32 pd)).word fmt.zero (path v) (ptIdx v) =
      if SamePage c.virt v then some c.leaf else none := by
  cases c with
  | map | unmap =>
      simp only [PageCall.on, BitVec.setWidth_eq, toOp, SpaceOp.word, ← samePage_iff,
        PageCall.virt, PageCall.leaf]
      rfl

/-- **A run on an empty space**: a leaf holds what the last call about its page left there. -/
theorem leaf_run {h : Machine} {pd : ℕ} (hz : ZeroedRoot h pd) {calls : List PageCall}
    {s : System} (hr : Run Step ⟨h, pd, []⟩ (calls.map (PageCall.on 32 pd)) s) (v : Word) :
    vmmGetPhysAddr s.heap pd v = some (PageCall.leafAfter v calls &&& frameMask) := by
  obtain ⟨c, hI, K⟩ := inv_run hr hz.inv
  have hpd : pd ∈ s.roots := K.roots List.mem_cons_self
  have hread := hr.latest (I := fun s => ∃ c, Inv fmt pagePool 2 Large c s)
    (P := fun c => c.On pd) (r := fun s => s.read fmt pd (path v) (ptIdx v))
    (e := fun c => (toOp c).word fmt.zero (path v) (ptIdx v))
    (fun {s l s'} hl ⟨c, hI⟩ h => by
      rw [Step, step_eq hI] at h
      obtain ⟨c₁, hI₁, -⟩ := hI.step (toOp_fits l) h
      have hon : (toOp l).On pd := by
        cases l with
        | create => trivial
        | map | unmap => exact hl
      exact ⟨⟨c₁, hI₁⟩, hI.read_step hon (toOp_fits l) h (managed_path v) rfl _⟩)
    (fun l hl => by
      obtain ⟨c, -, rfl⟩ := List.mem_map.mp hl
      exact c.on_on 32 pd) ⟨_, hz.inv⟩
  have hzero : (⟨h, pd, []⟩ : System).read fmt pd (path v) (ptIdx v) = 0 := by
    rw [Spaces.read, if_pos (show pd ∈ (⟨h, pd, []⟩ : System).roots from List.mem_cons_self)]
    exact Format.lookup_zeroed hz.zero _ _
  rw [hzero, Spaces.read, if_pos hpd, ← List.map_reverse, List.findSome?_map] at hread
  rw [vmmGetPhysAddr_eq hI.typed (hI.root pd hpd), hread]
  refine congrArg (fun w => some (w &&& frameMask)) ?_
  refine Eq.trans ?_ (PageCall.findSome?_leaf id v calls)
  exact congrArg (fun e => (calls.reverse.findSome? e).getD (0 : Word))
    (funext fun c => word_leaf pd c v)

end I386

namespace X64

theorem canonical_setWidth (v : BitVec 32) : Canonical (v.setWidth 64) := by
  have := v.isLt
  rw [Canonical, BitVec.toNat_setWidth_of_le (by decide)]
  omega

/-- The mask of this target keeps of a 32-bit number what the i386 one keeps. -/
theorem frameMask_setWidth (a : BitVec 32) :
    a.setWidth 64 &&& frameMask = (a &&& I386.frameMask).setWidth 64 := by
  refine BitVec.eq_of_getLsbD_eq fun i hi => ?_
  rw [BitVec.getLsbD_and, frameMask_bits.bits i hi, BitVec.getLsbD_setWidth,
    BitVec.getLsbD_setWidth, BitVec.getLsbD_and]
  by_cases h : i < 32
  · rw [I386.frameMask_bits.bits i h]
    have hiff : (12 ≤ i ∧ i < 52) ↔ 12 ≤ i ∧ i < 32 := by omega
    simp only [hiff, Bool.and_assoc]
  · rw [BitVec.getLsbD_of_ge a i (by omega)]
    simp only [Bool.and_false, Bool.false_and]

theorem word_leaf (pd : ℕ) (c : PageCall) (v : BitVec 32) :
    (toOp (c.on 64 pd)).word fmt.zero (path (v.setWidth 64)) (ptIndex (v.setWidth 64)) =
      if SamePage c.virt v then some (c.leaf.setWidth 64) else none := by
  have hpage : ∀ a b : BitVec 32,
      SamePage (a.setWidth 64) (b.setWidth 64) ↔ SamePage a b := by
    intro a b
    simp only [SamePage, BitVec.toNat_setWidth_of_le (show 32 ≤ 64 by decide)]
  have hsame : ∀ a : BitVec 32, (path (a.setWidth 64), ptIndex (a.setWidth 64)) =
      (path (v.setWidth 64), ptIndex (v.setWidth 64)) ↔ SamePage a v := by
    intro a
    rw [← samePage_iff (canonical_setWidth a) (canonical_setWidth v), hpage]
  cases c with
  | map virt phys flags =>
      have hleaf : (phys.setWidth 64 &&& frameMask) ||| flags.setWidth 64 ||| pagePresent =
          ((phys &&& I386.frameMask) ||| flags ||| pagePresent).setWidth 64 := by
        rw [frameMask_setWidth, BitVec.setWidth_or, BitVec.setWidth_or]
        rfl
      simp only [PageCall.on, toOp, SpaceOp.word, hsame, PageCall.virt, PageCall.leaf, hleaf]
      rfl
  | unmap virt =>
      simp only [PageCall.on, toOp, SpaceOp.word, hsame, PageCall.virt, PageCall.leaf]
      rfl

/-- **A run on an empty space**: a leaf holds what the last call about its page left there. -/
theorem leaf_run {h : Machine} {pd : ℕ} (hz : ZeroedRoot h pd) {calls : List PageCall}
    {s : System} (hr : Run Step ⟨h, pd, []⟩ (calls.map (PageCall.on 64 pd)) s) (v : BitVec 32) :
    vmmGetPhysAddr s.heap.mem pd (v.setWidth 64) =
      translate ((PageCall.leafAfter v calls).setWidth 64) (v.setWidth 64) := by
  have hmanaged : ∀ {b : ℕ} (v : Word),
      (⟨4, b, fun _ => False⟩ : Plan (Fin 512) ℕ).Managed [] (path v) :=
    fun v => ⟨id, id, id, trivial⟩
  have hfits : ∀ c : VmmCall 64, (toOp c).Fits 4 fun _ => False := by
    intro c
    cases c with
    | create => trivial
    | map | unmap => exact ⟨hmanaged _, rfl⟩
  obtain ⟨c, hI, K⟩ := inv_run hr (fun c _ => hfits c) hz.inv
  have hpd : pd ∈ s.roots := K.roots List.mem_cons_self
  have hread := hr.latest (I := fun s => ∃ c, Inv fmt pagePool 4 (fun _ => False) c s)
    (P := fun c => c.On pd)
    (r := fun s => s.read fmt pd (path (v.setWidth 64)) (ptIndex (v.setWidth 64)))
    (e := fun c => (toOp c).word fmt.zero (path (v.setWidth 64)) (ptIndex (v.setWidth 64)))
    (fun {s l s'} hl ⟨c, hI⟩ h => by
      rw [Step, step_eq] at h
      obtain ⟨c₁, hI₁, -⟩ := hI.step (hfits l) h
      have hon : (toOp l).On pd := by
        cases l with
        | create => trivial
        | map | unmap => exact hl
      exact ⟨⟨c₁, hI₁⟩, hI.read_step hon (hfits l) h (hmanaged _) rfl _⟩)
    (fun l hl => by
      obtain ⟨c, -, rfl⟩ := List.mem_map.mp hl
      exact c.on_on 64 pd) ⟨_, hz.inv⟩
  have hzero : (⟨h, pd, []⟩ : System).read fmt pd (path (v.setWidth 64))
      (ptIndex (v.setWidth 64)) = 0 := by
    rw [Spaces.read, if_pos (show pd ∈ (⟨h, pd, []⟩ : System).roots from List.mem_cons_self)]
    exact Format.lookup_zeroed hz.zero _ _
  rw [hzero, Spaces.read, if_pos hpd, ← List.map_reverse, List.findSome?_map] at hread
  rw [vmmGetPhysAddr_eq hI.typed (hI.root pd hpd) (hmanaged _), hread]
  refine congrArg (translate · (v.setWidth 64)) ?_
  refine Eq.trans ?_ (PageCall.findSome?_leaf (BitVec.setWidth 64) v calls)
  exact congrArg (fun e => (calls.reverse.findSome? e).getD (0 : Word))
    (funext fun c => word_leaf pd c v)

end X64

/-! ### Where the targets agree -/

/-- Both targets report the same physical address for `v`. -/
def Agree (h : I386.Machine) (pd : ℕ) (h' : X64.Machine) (pd' : ℕ) (v : BitVec 32) : Prop :=
  ∃ p, I386.vmmGetPhysAddr h pd v = some p ∧
    X64.vmmGetPhysAddr h'.mem pd' (v.setWidth 64) = p.setWidth 64

/-- A frame with an offset within the page is the frame only if the offset is 0. -/
theorem frame_or_offset {a v : BitVec 32} :
    (a &&& I386.frameMask) ||| (v &&& 0xFFF) = a &&& I386.frameMask ↔ v.toNat % 4096 = 0 := by
  have hoffset : (v &&& 0xFFF).toNat = v.toNat % 4096 := by
    rw [BitVec.toNat_and]
    exact Nat.and_two_pow_sub_one_eq_mod _ 12
  have hapart : I386.frameMask &&& (0xFFF : BitVec 32) = 0#32 := by decide
  constructor
  · intro h
    have hlow := congrArg (· &&& (0xFFF : BitVec 32)) h
    simp only [BitVec.and_or_distrib_right, BitVec.and_assoc, hapart, BitVec.and_zero,
      BitVec.zero_or, BitVec.and_self] at hlow
    rw [← hoffset, hlow]
    rfl
  · intro h
    have hzero : v &&& 0xFFF = 0#32 := by
      apply BitVec.eq_of_toNat_eq
      rw [hoffset, h]
      rfl
    rw [hzero, BitVec.or_zero]

theorem setWidth_inj {a b : BitVec 32} (h : a.setWidth 64 = b.setWidth 64) : a = b := by
  have htoNat := congrArg BitVec.toNat h
  rw [BitVec.toNat_setWidth_of_le (by decide), BitVec.toNat_setWidth_of_le (by decide)] at htoNat
  exact BitVec.eq_of_toNat_eq htoNat

/-- The x86_64 target puts the offset to the frame. -/
theorem translate_setWidth {w : BitVec 32} (hw : w &&& pagePresent ≠ 0) (v : BitVec 32) :
    X64.translate (w.setWidth 64) (v.setWidth 64) =
      ((w &&& I386.frameMask) ||| (v &&& 0xFFF)).setWidth 64 := by
  have hpresent : w.setWidth 64 &&& (pagePresent : X64.Word) ≠ 0 := by
    have hone : w.setWidth 64 &&& (pagePresent : X64.Word) = (w &&& pagePresent).setWidth 64 := by
      rw [BitVec.setWidth_and]
      rfl
    rw [hone]
    exact fun h => hw (setWidth_inj h)
  rw [X64.translate, if_neg hpresent, X64.frameMask_setWidth, BitVec.setWidth_or,
    BitVec.setWidth_and (x := v)]
  rfl

/-- **The targets agree** on an address exactly if it is at the start of its page, or its page is
not mapped. -/
theorem translations_agree_iff {h : I386.Machine} {pd : ℕ} (hz : I386.ZeroedRoot h pd)
    {h' : X64.Machine} {pd' : ℕ} (hz' : X64.ZeroedRoot h' pd') {calls : List PageCall}
    {s : I386.System} {s' : X64.System}
    (hr : Run I386.Step ⟨h, pd, []⟩ (calls.map (PageCall.on 32 pd)) s)
    (hr' : Run X64.Step ⟨h', pd', []⟩ (calls.map (PageCall.on 64 pd')) s') (v : BitVec 32) :
    Agree s.heap pd s'.heap pd' v ↔ v.toNat % 4096 = 0 ∨ ¬ PageCall.Mapped v calls := by
  rw [Agree, I386.leaf_run hz hr, X64.leaf_run hz' hr']
  by_cases hm : PageCall.Mapped v calls
  · rw [translate_setWidth (PageCall.leafAfter_present hm), or_iff_left (not_not_intro hm),
      ← frame_or_offset]
    constructor
    · rintro ⟨p, hp, h⟩
      obtain rfl := Option.some.inj hp
      exact setWidth_inj h
    · exact fun h => ⟨_, rfl, congrArg (BitVec.setWidth 64) h⟩
  · rw [PageCall.leafAfter_eq hm]
    exact iff_of_true ⟨0, by decide, rfl⟩ (.inr hm)

/-! ### One mapped page -/

/-- Zeroed memory, with eight pages free. -/
def zeroMachine {w : ℕ} : Heap ℕ (BitVec w) Bitmap := ⟨⟨fun _ => 0, []⟩, X64.bootBitmap⟩

theorem not_pageFree_root : ¬ PageFree X64.bootBitmap 0x101000 := by
  intro h
  have := X64.bootBitmap_free.mp h.2.2
  omega

theorem I386.zeroMachine_root : I386.ZeroedRoot zeroMachine 0x101000 :=
  ⟨⟨by decide, by decide, by decide⟩, not_pageFree_root, X64.bootBitmap_kernelReserved.1,
    fun _ => rfl⟩

theorem X64.zeroMachine_root : X64.ZeroedRoot zeroMachine 0x101000 :=
  ⟨⟨by decide, by decide, by decide⟩, not_pageFree_root, X64.bootBitmap_kernelReserved.1,
    fun _ => rfl⟩

/-- The page at 4 MiB mapped to the frame 5. -/
def onePage : List PageCall := [.map 0x400000 0x5000 7]

/-- The system of a zeroed root. -/
def zeroSystem {w : ℕ} : Spaces ℕ (BitVec w) ℕ Bitmap := ⟨zeroMachine, 0x101000, []⟩

theorem onePage_run : ∃ s s',
    Run I386.Step zeroSystem (onePage.map (PageCall.on 32 0x101000)) s ∧
    Run X64.Step zeroSystem (onePage.map (PageCall.on 64 0x101000)) s' ∧
    I386.vmmGetPhysAddr s.heap 0x101000 0x400ABC = some 0x5000 ∧
    X64.vmmGetPhysAddr s'.heap.mem 0x101000 0x400ABC = 0x5ABC := by
  have h : (do
      let s ← I386.step zeroSystem (.map 0x101000 0x400000 0x5000 7)
      let s' ← X64.step zeroSystem (.map 0x101000 0x400000 0x5000 7)
      some (I386.vmmGetPhysAddr s.heap 0x101000 0x400ABC,
        X64.vmmGetPhysAddr s'.heap.mem 0x101000 0x400ABC)) = some (some 0x5000, 0x5ABC) := by
    decide +kernel
  simp only [Option.bind_eq_bind, Option.bind_eq_some_iff, Option.some.injEq, Prod.mk.injEq] at h
  obtain ⟨s, h₁, s', h₂, hp, hp'⟩ := h
  exact ⟨s, s', .one h₁, .one h₂, hp, hp'⟩

/-- The targets agree on the start of the page. -/
theorem translations_agree_at_start : ∃ s s',
    Run I386.Step zeroSystem (onePage.map (PageCall.on 32 0x101000)) s ∧
    Run X64.Step zeroSystem (onePage.map (PageCall.on 64 0x101000)) s' ∧
    Agree s.heap 0x101000 s'.heap 0x101000 0x400000 := by
  obtain ⟨s, s', hr, hr', -, -⟩ := onePage_run
  exact ⟨s, s', hr, hr', (translations_agree_iff I386.zeroMachine_root X64.zeroMachine_root hr hr'
    0x400000).mpr (.inl (by decide))⟩

/-- Within the page they do not: the i386 target reports `0x5000` for `0x400ABC`, and the x86_64
one `0x5ABC`. -/
theorem offset_dropped : ¬ ∀ (h : I386.Machine) (pd : ℕ) (h' : X64.Machine) (pd' : ℕ)
    (calls : List PageCall) (s : I386.System) (s' : X64.System),
    I386.ZeroedRoot h pd → X64.ZeroedRoot h' pd' →
    Run I386.Step ⟨h, pd, []⟩ (calls.map (PageCall.on 32 pd)) s →
    Run X64.Step ⟨h', pd', []⟩ (calls.map (PageCall.on 64 pd')) s' →
    ∀ v, Agree s.heap pd s'.heap pd' v := by
  intro hall
  obtain ⟨s, s', hr, hr', hp, hp'⟩ := onePage_run
  obtain ⟨p, e, e'⟩ := hall zeroMachine 0x101000 zeroMachine 0x101000 onePage s s'
    I386.zeroMachine_root X64.zeroMachine_root hr hr' 0x400ABC
  obtain rfl := Option.some.inj (hp.symm.trans e)
  exact absurd (hp'.symm.trans e') (by decide)

end ZeptoOS
