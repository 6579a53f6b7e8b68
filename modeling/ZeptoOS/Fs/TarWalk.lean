import ZeptoOS.Fs.Tar
import ZeptoOS.Lib.Walk

/-!
# Fs — TarWalk

The walk of `tar_parse` over any bytes.  The address of the next header is computed in 32 bits from
a size field that may say anything, so the step may be zero, go back, or lead out of the region the
archive is in.  The walk ends exactly if it looks at no header twice
(`terminates_iff_never_twice`), and where each step from a header of the region is a positive one
that leaves room for a block, the walk ends and stays in the region (`tarParse_region`).
`zero_step_never_ends` is a region of two blocks in which it never ends.
-/

namespace ZeptoOS.Fs
open Lib

variable {mem : ℕ → Byte} {address : BitVec 32}

/-- What the walk adds to the address of a header. -/
def headerStep (mem : ℕ → Byte) (header : BitVec 32) : BitVec 32 :=
  ((headerSize mem header + 511) / 512 + 1) * 512

/-- The header after `header`, if that is not the end of the archive. -/
def followingHeader (mem : ℕ → Byte) (header : BitVec 32) : Option (BitVec 32) :=
  if mem header.toNat = 0 then none else some (nextHeader mem header)

/-- Header `n` of those the walk from `address` looks at. -/
def inspected (mem : ℕ → Byte) (address : BitVec 32) : ℕ → Option (BitVec 32) :=
  visit (followingHeader mem) address

theorem inspects_iff {header : BitVec 32} :
    Inspects mem address header ↔ ∃ n, inspected mem address n = some header := by
  constructor
  · intro h
    induction h with
    | first => exact ⟨0, rfl⟩
    | next _ hname ih =>
        obtain ⟨n, hn⟩ := ih
        refine ⟨n + 1, ?_⟩
        rw [inspected, visit, ← inspected, hn]
        exact if_neg hname
  · rintro ⟨n, hn⟩
    induction n generalizing header with
    | zero => exact Option.some.inj hn ▸ .first
    | succ n ih =>
        obtain ⟨h, hh, hnext⟩ := Option.bind_eq_some_iff.mp hn
        rw [followingHeader] at hnext
        split at hnext
        · cases hnext
        · rename_i hname
          exact Option.some.inj hnext ▸ .next (ih hh) hname

/-- The loop has a result exactly if the walk ends within its bound. -/
theorem parseLoop_isSome {fuel : ℕ} {files : List FileEntry} {current : BitVec 32} :
    (∃ r, parseLoop mem fuel files current = some r) ↔ inspected mem current fuel = none := by
  induction fuel generalizing files current with
  | zero => simp [parseLoop, inspected, visit]
  | succ fuel ih =>
      rw [parseLoop, inspected, visit_succ, followingHeader]
      split
      · simp
      · exact ih

/-- A larger bound gives the same result. -/
theorem parseLoop_mono {fuel k : ℕ} {files r : List FileEntry} {current : BitVec 32}
    (h : parseLoop mem fuel files current = some r) :
    parseLoop mem (fuel + k) files current = some r := by
  induction fuel generalizing files current with
  | zero => cases h
  | succ fuel ih =>
      rw [parseLoop] at h
      rw [Nat.succ_add, parseLoop]
      split at h
      · rename_i hname
        rwa [if_pos hname]
      · rename_i hname
        rw [if_neg hname]
        exact ih h

/-- `tar_parse` returns. -/
def Terminates (mem : ℕ → Byte) (address : BitVec 32) : Prop :=
  ∃ n t, ∀ fuel ≥ n, tarParse mem fuel address = some t

theorem terminates_iff : Terminates mem address ↔ ∃ n, inspected mem address n = none := by
  constructor
  · rintro ⟨n, t, h⟩
    obtain ⟨r, hr, -⟩ := Option.map_eq_some_iff.mp (h n (Nat.le_refl n))
    exact ⟨n, parseLoop_isSome.mp ⟨r, hr⟩⟩
  · rintro ⟨n, h⟩
    obtain ⟨r, hr⟩ := parseLoop_isSome.mpr h
    refine ⟨n, tarTables r, fun fuel hfuel => ?_⟩
    obtain ⟨k, rfl⟩ := Nat.exists_eq_add_of_le hfuel
    rw [tarParse, parseLoop_mono hr]
    rfl

instance finite_bitVec : Finite (BitVec 32) := .of_equiv _ BitVec.equivFin.symm.toEquiv

/-- **The walk ends exactly if it looks at no header twice**, whatever the memory holds. -/
theorem terminates_iff_never_twice : Terminates mem address ↔
    ∀ i j h, i < j → inspected mem address i = some h → inspected mem address j ≠ some h :=
  terminates_iff.trans ends_iff_never_twice

/-- A step is zero for the sizes whose blocks and header make 4 GiB. -/
theorem headerStep_eq_zero_iff {header : BitVec 32} : headerStep mem header = 0 ↔
    2 ^ 32 - 1024 < (headerSize mem header).toNat ∧
      (headerSize mem header).toNat ≤ 2 ^ 32 - 512 := by
  have hlt := (headerSize mem header).isLt
  rw [headerStep, ← BitVec.toNat_inj, toNat_step]
  change _ = 0 ↔ _
  omega

/-- The step from `header` is a positive one to a block below `stop`. -/
def StepInside (mem : ℕ → Byte) (stop : ℕ) (header : BitVec 32) : Prop :=
  headerStep mem header ≠ 0 ∧ header.toNat + (headerStep mem header).toNat + 512 ≤ stop

theorem nextHeader_inside {header : BitVec 32} {stop : ℕ} (hstop : stop ≤ 2 ^ 32)
    (h : StepInside mem stop header) : header.toNat < (nextHeader mem header).toNat ∧
      (nextHeader mem header).toNat + 512 ≤ stop := by
  obtain ⟨hne, hle⟩ := h
  have hpos : (headerStep mem header).toNat ≠ 0 := fun h₀ => hne (BitVec.eq_of_toNat_eq h₀)
  have hnext : (nextHeader mem header).toNat = header.toNat + (headerStep mem header).toNat := by
    rw [nextHeader, ← headerStep, BitVec.toNat_add]
    exact Nat.mod_eq_of_lt (by omega)
  omega

section Region

variable {length : ℕ}

/-- The last block of the region is zero. -/
def ZeroBlock (mem : ℕ → Byte) (stop : ℕ) : Prop := ∀ k < 512, mem (stop - 512 + k) = 0

/-- Where all steps lead forward in the region, so does every header the walk looks at. -/
theorem inspects_region (hstop : address.toNat + length ≤ 2 ^ 32) (hlen : 512 ≤ length)
    (hzero : ZeroBlock mem (address.toNat + length))
    (hstep : ∀ h, Inspects mem address h → h.toNat + 512 < address.toNat + length →
      mem h.toNat ≠ 0 → StepInside mem (address.toNat + length) h)
    {header : BitVec 32} (h : Inspects mem address header) :
    (address.toNat ≤ header.toNat ∧ header.toNat + 512 ≤ address.toNat + length) ∧
      (mem header.toNat ≠ 0 → StepInside mem (address.toNat + length) header) := by
  -- the last block is a terminator, so there is no step from it
  have hlast : ∀ {h : BitVec 32}, h.toNat + 512 = address.toNat + length → mem h.toNat = 0 := by
    intro h e
    have h₀ := hzero 0 (by omega)
    rwa [← e, Nat.add_sub_cancel, Nat.add_zero] at h₀
  have hinside : ∀ {h : BitVec 32}, Inspects mem address h →
      h.toNat + 512 ≤ address.toNat + length → mem h.toNat ≠ 0 →
      StepInside mem (address.toNat + length) h := fun hi hle hname =>
    hstep _ hi (Nat.lt_of_le_of_ne hle fun e => hname (hlast e)) hname
  induction h with
  | first => exact ⟨⟨Nat.le_refl _, by omega⟩, hinside .first (by omega)⟩
  | @next header hi hname ih =>
      obtain ⟨⟨hge, -⟩, hfrom⟩ := ih
      obtain ⟨hlt, hle⟩ := nextHeader_inside hstop (hfrom hname)
      exact ⟨⟨by omega, hle⟩, hinside (.next hi hname) hle⟩

/-- **`tar_parse` on a region whose headers keep to it.** -/
theorem tarParse_region (hstop : address.toNat + length ≤ 2 ^ 32) (hlen : 512 ≤ length)
    (hzero : ZeroBlock mem (address.toNat + length))
    (hstep : ∀ h, Inspects mem address h → h.toNat + 512 < address.toNat + length →
      mem h.toNat ≠ 0 → StepInside mem (address.toNat + length) h) :
    Terminates mem address ∧ ∀ h, Inspects mem address h →
      address.toNat ≤ h.toNat ∧ h.toNat + 512 ≤ address.toNat + length := by
  refine ⟨terminates_iff.mpr ?_, fun h hi => (inspects_region hstop hlen hzero hstep hi).1⟩
  refine ends_of_increasing (f := BitVec.toNat) fun n h h' hn hnext => ?_
  rw [followingHeader] at hnext
  split at hnext
  · cases hnext
  · rename_i hname
    obtain rfl := Option.some.inj hnext
    have hi := inspects_iff.mpr ⟨n, hn⟩
    exact (nextHeader_inside hstop ((inspects_region hstop hlen hzero hstep hi).2 hname)).1

end Region

/-- **`tar_parse` on malformed archives.**  In a region below 4 GiB that ends with a zero block,
`tar_parse` terminates and looks at headers of the region only, if each header before the last
block has a step that is not zero and leaves room for a block.  In any memory, it terminates
exactly if it looks at no header twice, and a header has the step zero exactly if its size is
in the last 1023 bytes before the last block of 4 GiB. -/
theorem tar_parse_malformed (mem : ℕ → Byte) (address : BitVec 32) :
    (∀ length, address.toNat + length ≤ 2 ^ 32 → 512 ≤ length →
      ZeroBlock mem (address.toNat + length) →
      (∀ h, Inspects mem address h → h.toNat + 512 < address.toNat + length →
        mem h.toNat ≠ 0 → StepInside mem (address.toNat + length) h) →
      Terminates mem address ∧ ∀ h, Inspects mem address h →
        address.toNat ≤ h.toNat ∧ h.toNat + 512 ≤ address.toNat + length) ∧
    (Terminates mem address ↔ ∀ i j h, i < j →
      inspected mem address i = some h → inspected mem address j ≠ some h) ∧
    ∀ header, headerStep mem header = 0 ↔
      2 ^ 32 - 1024 < (headerSize mem header).toNat ∧
        (headerSize mem header).toNat ≤ 2 ^ 32 - 512 :=
  ⟨fun _ hstop hlen hzero hstep => tarParse_region hstop hlen hzero hstep,
    terminates_iff_never_twice, fun _ => headerStep_eq_zero_iff⟩

/-- An empty file, then a zero block. -/
theorem tar_parse_malformed_empty_file :
    ∃ mem : ℕ → Byte, mem 0x100000 ≠ 0 ∧ Terminates mem 0x100000 ∧
      ∀ h, Inspects mem 0x100000 h → 0x100000 ≤ h.toNat ∧ h.toNat + 512 ≤ 0x100400 := by
  let mem : ℕ → Byte := fun a => if a = 0x100000 then 0x78 else 0
  have hzero : ZeroBlock mem ((0x100000 : BitVec 32).toNat + 0x400) := fun k _ => if_neg (by
    have hstart : (0x100000 : BitVec 32).toNat = 0x100000 := rfl
    omega)
  refine ⟨mem, by decide +kernel, (tar_parse_malformed mem 0x100000).1 0x400 (by decide)
    (by decide) hzero fun h _ _ hname => ?_⟩
  -- the only byte that is not zero is the name of the file
  have hat : h.toNat = 0x100000 := by
    by_contra hne
    exact hname (if_neg hne)
  obtain rfl : h = 0x100000 := BitVec.eq_of_toNat_eq hat
  exact ⟨by decide +kernel, by decide +kernel⟩

/-- A header with the size field `37777777000`, then a zero block: the walk stays at the header. -/
theorem zero_step_never_ends :
    ∃ mem : ℕ → Byte, ZeroBlock mem 0x100400 ∧ ¬ Terminates mem 0x100000 := by
  let field : List Byte := [0x33, 0x37, 0x37, 0x37, 0x37, 0x37, 0x37, 0x37, 0x30, 0x30, 0x30]
  let mem : ℕ → Byte := fun a =>
    if a = 0x100000 then 0x78 else if a < 0x10007C then 0 else field.getD (a - 0x10007C) 0
  refine ⟨mem, fun k _ => ?_, fun h => ?_⟩
  · have hfar : field.length ≤ 0x100400 - 512 + k - 0x10007C := by
      have hfield : field.length = 11 := rfl
      omega
    simp only [mem]
    rw [if_neg (by omega), if_neg (by omega), List.getD_eq_getElem?_getD,
      List.getElem?_eq_none hfar]
    rfl
  · exact terminates_iff_never_twice.mp h 0 1 0x100000 (by decide) rfl (by decide +kernel)

end ZeptoOS.Fs
