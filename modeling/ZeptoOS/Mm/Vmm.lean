import ZeptoOS.Lib.Spaces
import ZeptoOS.Mm.Pmm

/-!
# Mm — Vmm

What `kernel/i386/vmm.c` and `kernel/x64/vmm.c` have in common: pages of 4096 bytes, entries of
a frame address and flags, and the calls the two files offer.

Memory is physical and seen in words of one entry, at their byte addresses: the kernel reaches a
table at the address `pmm_alloc` returned for it, through its identity map.  `NULL` is 0.
`pageFormat` is the table format of either target, given the bits its mask keeps.
-/

namespace ZeptoOS
open Lib

/-! ### Entries -/

/-- `PAGE_PRESENT` -/
abbrev pagePresent {w : ℕ} : BitVec w := 1

/-- `PAGE_WRITE` -/
abbrev pageWrite {w : ℕ} : BitVec w := 2

/-- `PAGE_USER` -/
abbrev pageUser {w : ℕ} : BitVec w := 4

/-- `mask` keeps the bits of a page address below `2 ^ top`. -/
structure FrameMask {w : ℕ} (mask : BitVec w) (top : ℕ) : Prop where
  top_le : top ≤ w
  le_top : 12 ≤ top
  bits : ∀ i < w, mask.getLsbD i = decide (12 ≤ i ∧ i < top)

section FrameMask

variable {w top : ℕ} {mask : BitVec w}

/-- A page address is its own frame. -/
theorem FrameMask.page (hM : FrameMask mask top) {p : ℕ} (hp : p % 4096 = 0) (hlt : p < 2 ^ top) :
    BitVec.ofNat w p &&& mask = BitVec.ofNat w p := by
  refine BitVec.eq_of_getLsbD_eq fun i hi => ?_
  rw [BitVec.getLsbD_and, hM.bits i hi, BitVec.getLsbD_ofNat]
  by_cases hlo : 12 ≤ i
  · by_cases hhi : i < top
    · simp [hlo, hhi]
    · rw [Nat.testBit_lt_two_pow (Nat.lt_of_lt_of_le hlt (Nat.pow_le_pow_right (by decide)
        (by omega)))]
      simp
  · obtain ⟨q, rfl⟩ : ∃ q, p = 2 ^ 12 * q := ⟨p / 4096, by omega⟩
    simp only [Nat.testBit_two_pow_mul, ge_iff_le, hlo, decide_false, Bool.false_and,
      Bool.and_false]

theorem FrameMask.toNat_page (hM : FrameMask mask top) {p : ℕ} (hp : p % 4096 = 0)
    (hlt : p < 2 ^ top) : (BitVec.ofNat w p &&& mask).toNat = p := by
  have := Nat.pow_le_pow_right (n := 2) (by decide) hM.top_le
  rw [hM.page hp hlt, BitVec.toNat_ofNat, Nat.mod_eq_of_lt (by omega)]

/-- The frame of an address, where the mask keeps all the bits of a page number. -/
theorem FrameMask.frame (hM : FrameMask mask w) (v : BitVec w) :
    v &&& mask = BitVec.ofNat w (2 ^ 12 * (v.toNat / 2 ^ 12)) := by
  refine BitVec.eq_of_getLsbD_eq fun i hi => ?_
  rw [BitVec.getLsbD_and, hM.bits i hi, BitVec.getLsbD_ofNat, Nat.testBit_two_pow_mul,
    Nat.testBit_div_two_pow]
  by_cases hlo : 12 ≤ i
  · simp [hlo, hi, Nat.sub_add_cancel hlo, BitVec.getLsbD]
  · simp [hlo]

/-- Flags below the mask are no part of a frame. -/
theorem frame_or {a b mask : BitVec w} (hb : b &&& mask = 0) :
    (a ||| b) &&& mask = a &&& mask := by
  rw [BitVec.and_or_distrib_right, hb]
  exact BitVec.or_zero

/-- The frame of a leaf that `vmm_map_page` stores, if the flags add nothing to it. -/
theorem frame_leaf {phys flags mask : BitVec w} (h1 : pagePresent &&& mask = 0)
    (hf : (flags &&& mask) ||| (phys &&& mask) = phys &&& mask) :
    ((phys &&& mask) ||| flags ||| pagePresent) &&& mask = phys &&& mask := by
  rw [frame_or h1, BitVec.and_or_distrib_right, BitVec.and_assoc, BitVec.and_self, BitVec.or_comm]
  exact hf

theorem present_or {a : BitVec w} (hw : 0 < w) : (a ||| pagePresent) &&& pagePresent ≠ 0 := by
  intro h
  have := congrArg (BitVec.getLsbD · 0) h
  simp [hw] at this

end FrameMask

/-! ### Tables -/

/-- What a target's masks and flags must satisfy for its tables to be tables. -/
structure PageShape {w : ℕ} (n size top : ℕ) (mask : BitVec w) (large : BitVec w → Bool) :
    Prop where
  page : n * size = 4096
  frames : FrameMask mask top
  flags : (pagePresent ||| pageWrite ||| pageUser) &&& mask = (0 : BitVec w)
  small : ∀ {p}, p % 4096 = 0 → p < 2 ^ top →
    large (BitVec.ofNat w p ||| pagePresent ||| pageWrite ||| pageUser) = false

/-- A page address other than `NULL`. -/
def PageAddr (top p : ℕ) : Prop := p % 4096 = 0 ∧ p ≠ 0 ∧ p < 2 ^ top

/-- Tables of `n` entries of `size` bytes, in a page each. -/
def pageFormat {w : ℕ} (n size top : ℕ) (mask : BitVec w) (large : BitVec w → Bool)
    (hs : PageShape n size top mask large) : Format ℕ (BitVec w) ℕ (Fin n) where
  null := 0
  zero := 0
  slot p i := p + size * i
  indices := List.finRange n
  present e := e &&& pagePresent != 0
  large := large
  target e := (e &&& mask).toNat
  link p := BitVec.ofNat w p ||| pagePresent ||| pageWrite ||| pageUser
  Valid := PageAddr top
  mem_indices := List.mem_finRange
  slot_inj {p q i j} hp hq h := by
    have hpage := hs.page
    have hsize : 0 < size := Nat.pos_of_ne_zero fun e => by simp [e] at hpage
    have hbound : ∀ k : Fin n, size * k < 4096 := fun k => by
      calc size * k < size * n := Nat.mul_lt_mul_of_pos_left k.isLt hsize
        _ = 4096 := by rw [Nat.mul_comm, hpage]
    obtain ⟨hp, -, -⟩ := hp
    obtain ⟨hq, -, -⟩ := hq
    have hi := hbound i
    have hj := hbound j
    have hpq : p = q := by omega
    exact ⟨hpq, Fin.ext (Nat.eq_of_mul_eq_mul_left hsize (by omega))⟩
  ne_null hp := hp.2.1
  present_zero := by simp
  present_link {p} _ := by
    have hw : 0 < w := Nat.lt_of_lt_of_le (by decide) (hs.frames.le_top.trans hs.frames.top_le)
    rw [bne_iff_ne, BitVec.or_assoc, BitVec.or_assoc, BitVec.or_comm pagePresent,
      ← BitVec.or_assoc]
    exact present_or hw
  large_link hp := hs.small hp.1 hp.2.2
  target_link {p} hp := by
    rw [BitVec.or_assoc, BitVec.or_assoc, frame_or (by rw [← BitVec.or_assoc]; exact hs.flags)]
    exact hs.frames.toNat_page hp.1 hp.2.2

/-! ### Calls -/

/-- A call of one of the functions that change translations. -/
inductive VmmCall (w : ℕ) where
  | create
  | map (pd : ℕ) (virt phys flags : BitVec w)
  | unmap (pd : ℕ) (virt : BitVec w)

/-- Two addresses on one page. -/
def SamePage {w : ℕ} (v v' : BitVec w) : Prop := v.toNat / 4096 = v'.toNat / 4096

instance {w : ℕ} (v v' : BitVec w) : Decidable (SamePage v v') := decEq _ _

/-- What a call does to the page of `v` in `pd`: nothing, or map it to a frame, or unmap it. -/
def VmmCall.effect {w : ℕ} (mask : BitVec w) (pd : ℕ) (v : BitVec w) :
    VmmCall w → Option (Option (BitVec w))
  | .create => none
  | .map p virt phys _ => if p = pd ∧ SamePage virt v then some (some (phys &&& mask)) else none
  | .unmap p virt => if p = pd ∧ SamePage virt v then some none else none

/-- The frame of the last call that mapped the page of `v` in `pd`, unless a later one unmapped
it: the translation a finite map from pages to frames would give. -/
def lastMapped {w : ℕ} (mask : BitVec w) (pd : ℕ) (v : BitVec w) (calls : List (VmmCall w)) :
    Option (BitVec w) :=
  (calls.reverse.findSome? (VmmCall.effect mask pd v)).join

/-- The call makes a space, or is on `pd`. -/
def VmmCall.On {w : ℕ} (pd : ℕ) : VmmCall w → Prop
  | .create => True
  | .map p _ _ _ | .unmap p _ => p = pd

/-- The call maps or unmaps a page of `pd`. -/
def VmmCall.Changes {w : ℕ} (pd : ℕ) : VmmCall w → Prop
  | .create => False
  | .map p _ _ _ | .unmap p _ => p = pd

/-- The flags of the call have no address bits. -/
def VmmCall.NoAddressBits {w : ℕ} (mask : BitVec w) : VmmCall w → Prop
  | .map _ _ _ flags => flags &&& mask = 0
  | _ => True

section LastMapped

variable {w : ℕ} {mask : BitVec w} {pd : ℕ} {v : BitVec w}

/-- What the last call about a page leaves, as any function of its mapping. -/
theorem findSome?_effect {V : Type*} (value : Option (BitVec w) → V) (calls : List (VmmCall w)) :
    (calls.reverse.findSome? fun c => (c.effect mask pd v).map value).getD (value none) =
      value (lastMapped mask pd v calls) := by
  have hmap : (fun c => (VmmCall.effect mask pd v c).map value) =
      Option.map value ∘ VmmCall.effect mask pd v := rfl
  rw [hmap, ← List.map_findSome?, lastMapped]
  cases calls.reverse.findSome? (VmmCall.effect mask pd v) <;> rfl

theorem lastMapped_same {calls : List (VmmCall w)} {call : VmmCall w} {f : Option (BitVec w)}
    (h : call.effect mask pd v = some f) : lastMapped mask pd v (calls ++ [call]) = f := by
  rw [lastMapped, List.reverse_append, List.reverse_singleton, List.singleton_append,
    List.findSome?_cons, h]
  rfl

/-- A call about another page leaves the mapping of this one. -/
theorem lastMapped_other {calls : List (VmmCall w)} {call : VmmCall w}
    (h : call.effect mask pd v = none) :
    lastMapped mask pd v (calls ++ [call]) = lastMapped mask pd v calls := by
  rw [lastMapped, lastMapped, List.reverse_append, List.reverse_singleton, List.singleton_append,
    List.findSome?_cons_of_isNone (by rw [h]; rfl)]

end LastMapped

end ZeptoOS
