import ZeptoOS.Fs.Ext2Dir
import ZeptoOS.Fs.Ext2Nodes
import ZeptoOS.Lib.Fuel

/-!
# Fs — Ext2Corrupt

The walks over a directory of which nothing is known, in the arithmetic of the source: `offset` is a
`uint32_t`, the loops run as long as they run, and behind the block the buffer holds what the stack
held.  Each walk comes with the positions in the buffer that it inspects.

For all indices and names the walks end and inspect bytes of the block only exactly if the records,
as far as they are reached, lie in the block (`directory_walks_inside_iff`).
-/

namespace ZeptoOS.Fs
open Lib

/-! ### The walks -/

/-- The `n` positions from `p` on. -/
abbrev bytesAt (p n : ℕ) : List ℕ := List.range' p n

/-- A walk that goes on from a turn that inspected `here`. -/
def inspecting {A : Type} (here : List ℕ) (w : Option (A × List ℕ)) : Option (A × List ℕ) :=
  w.map fun r => (r.1, here ++ r.2)

/-- The comparison of the argument with an entry's name, with `n` characters to go from `i` on. -/
def compareName (buf name : ℕ → Byte) (entryName : ℕ) : ℕ → ℕ → Bool × List ℕ
  | 0, i => (name i = 0, [])
  | n + 1, i =>
      if buf (entryName + i) ≠ name i then (false, [entryName + i])
      else
        let rest := compareName buf name entryName n (i + 1)
        (rest.1, (entryName + i) :: rest.2)

/-- `cached_dirent`, filled from the entry at `entry`. -/
def direntAt (buf : ℕ → Byte) (entry : ℕ) : Dirent where
  name := slice buf (entry + 8) (min (entryNameLen buf entry) 127)
  ino := BitVec.ofNat 32 (entryInode buf entry)
  type := entryFileType buf entry

section Walks

variable (buf : ℕ → Byte) (size : BitVec 32)

/-- `offset += entry->rec_len` -/
def nextOffset (offset : BitVec 32) : BitVec 32 :=
  offset + BitVec.ofNat 32 (entryRecLen buf offset.toNat)

/-- The loop of `ext2_node_readdir`, with `fuel` turns, over the buffer `buf`. -/
def readdirWalk (index : BitVec 32) :
    ℕ → BitVec 32 → BitVec 32 → Option (Option Dirent × List ℕ)
  | 0, _, _ => none
  | fuel + 1, offset, current =>
      if offset < size then
        let entry := offset.toNat
        if entryRecLen buf entry = 0 then some (none, bytesAt (entry + 4) 2)
        else if entryInode buf entry ≠ 0 then
          if current = index then
            some (some (direntAt buf entry), bytesAt entry (8 + min (entryNameLen buf entry) 127))
          else
            inspecting (bytesAt entry 6)
              (readdirWalk index fuel (nextOffset buf offset) (current + 1))
        else inspecting (bytesAt entry 6) (readdirWalk index fuel (nextOffset buf offset) current)
      else some (none, [])

/-- The loop of `ext2_node_finddir`, with `fuel` turns, over the buffer `buf`: the inode found. -/
def finddirWalk (name : ℕ → Byte) : ℕ → BitVec 32 → Option (Option ℕ × List ℕ)
  | 0, _ => none
  | fuel + 1, offset =>
      if offset < size then
        let entry := offset.toNat
        if entryRecLen buf entry = 0 then some (none, bytesAt (entry + 4) 2)
        else if entryInode buf entry ≠ 0 then
          let (hit, seen) := compareName buf name (entry + 8) (entryNameLen buf entry) 0
          if hit then some (some (entryInode buf entry), bytesAt entry 7 ++ seen)
          else
            inspecting (bytesAt entry 7 ++ seen) (finddirWalk name fuel (nextOffset buf offset))
        else inspecting (bytesAt entry 6) (finddirWalk name fuel (nextOffset buf offset))
      else some (none, [])

end Walks

/-- The walk returns `a`, and inspects bytes of the block only. -/
def EndsInside {A : Type} (blockSize : ℕ) (w : ℕ → Option (A × List ℕ)) (a : A) : Prop :=
  ∃ seen, Returns w (a, seen) ∧ ∀ p ∈ seen, p < blockSize

/-- The walk ends, and inspects bytes of the block only. -/
def StaysInside {A : Type} (blockSize : ℕ) (w : ℕ → Option (A × List ℕ)) : Prop :=
  ∃ a, EndsInside blockSize w a

section Turns

variable {A : Type} {blockSize : ℕ} {w w' : ℕ → Option (A × List ℕ)} {here : List ℕ} {a b : A}

theorem bytesAt_inside {p n : ℕ} (hn : n ≠ 0) :
    (∀ q ∈ bytesAt p n, q < blockSize) ↔ p + n ≤ blockSize := by
  simp only [bytesAt, List.mem_range'_1]
  constructor
  · intro h
    have hlast := h (p + n - 1) (by omega)
    omega
  · rintro h q ⟨-, hq⟩
    omega

theorem endsInside_stop (h : ∀ fuel, w (fuel + 1) = some (a, here)) :
    EndsInside blockSize w b ↔ b = a ∧ ∀ p ∈ here, p < blockSize := by
  have hret : Returns w (a, here) := .stop h
  constructor
  · rintro ⟨seen, hr, hin⟩
    obtain ⟨rfl, rfl⟩ := Prod.mk.inj (hret.unique hr)
    exact ⟨rfl, hin⟩
  · rintro ⟨rfl, hin⟩
    exact ⟨here, hret, hin⟩

theorem endsInside_turn (h : ∀ fuel, w (fuel + 1) = inspecting here (w' fuel)) :
    EndsInside blockSize w a ↔ (∀ p ∈ here, p < blockSize) ∧ EndsInside blockSize w' a := by
  constructor
  · rintro ⟨seen, hr, hin⟩
    obtain ⟨⟨a', seen'⟩, hb, e⟩ := Returns.of_turn h (fun x y hxy => by
      obtain ⟨h₁, h₂⟩ := Prod.mk.inj hxy
      exact Prod.ext h₁ (List.append_cancel_left h₂)) hr
    obtain ⟨rfl, rfl⟩ := Prod.mk.inj e
    exact ⟨fun p hp => hin p (List.mem_append_left _ hp), seen', hb,
      fun p hp => hin p (List.mem_append_right _ hp)⟩
  · rintro ⟨hhere, seen, hb, hin⟩
    refine ⟨_, Returns.turn h hb, ?_⟩
    intro p hp
    rcases List.mem_append.mp hp with hp | hp
    · exact hhere p hp
    · exact hin p hp

end Turns

section Turn

variable {buf : ℕ → Byte} {size offset : BitVec 32} {blockSize : ℕ}

/-- One turn of the loop of `ext2_node_readdir`, with what it returns. -/
theorem readdirWalk_ends {index current : BitVec 32} {r : Option Dirent} (h : offset < size) :
    EndsInside blockSize (readdirWalk buf size index · offset current) r ↔
      if entryRecLen buf offset.toNat = 0 then r = none ∧ offset.toNat + 6 ≤ blockSize
      else if entryInode buf offset.toNat ≠ 0 then
        if current = index then
          r = some (direntAt buf offset.toNat) ∧
            offset.toNat + (8 + min (entryNameLen buf offset.toNat) 127) ≤ blockSize
        else
          offset.toNat + 6 ≤ blockSize ∧ EndsInside blockSize
            (readdirWalk buf size index · (nextOffset buf offset) (current + 1)) r
      else
        offset.toNat + 6 ≤ blockSize ∧ EndsInside blockSize
          (readdirWalk buf size index · (nextOffset buf offset) current) r := by
  split
  · rename_i hlen
    rw [← bytesAt_inside (p := offset.toNat + 4) (n := 2) (by decide)]
    refine endsInside_stop fun fuel => ?_
    rw [readdirWalk, if_pos h]
    exact if_pos hlen
  · rename_i hlen
    split
    · rename_i hlive
      split
      · rename_i hcurrent
        rw [← bytesAt_inside (by omega)]
        refine endsInside_stop fun fuel => ?_
        rw [readdirWalk, if_pos h]
        dsimp only
        rw [if_neg hlen, if_pos hlive, if_pos hcurrent]
      · rename_i hcurrent
        rw [← bytesAt_inside (p := offset.toNat) (n := 6) (by decide)]
        refine endsInside_turn fun fuel => ?_
        rw [readdirWalk, if_pos h]
        dsimp only
        rw [if_neg hlen, if_pos hlive, if_neg hcurrent]
    · rename_i hdead
      rw [← bytesAt_inside (p := offset.toNat) (n := 6) (by decide)]
      refine endsInside_turn fun fuel => ?_
      rw [readdirWalk, if_pos h]
      dsimp only
      rw [if_neg hlen, if_neg hdead]

theorem readdirWalk_stays {index current : BitVec 32} (h : offset < size) :
    StaysInside blockSize (readdirWalk buf size index · offset current) ↔
      if entryRecLen buf offset.toNat = 0 then offset.toNat + 6 ≤ blockSize
      else if entryInode buf offset.toNat ≠ 0 then
        if current = index then
          offset.toNat + (8 + min (entryNameLen buf offset.toNat) 127) ≤ blockSize
        else
          offset.toNat + 6 ≤ blockSize ∧ StaysInside blockSize
            (readdirWalk buf size index · (nextOffset buf offset) (current + 1))
      else
        offset.toNat + 6 ≤ blockSize ∧
          StaysInside blockSize (readdirWalk buf size index · (nextOffset buf offset) current) := by
  simp only [StaysInside, readdirWalk_ends h]
  split
  · exact exists_eq_left
  · split
    · split
      · exact exists_eq_left
      · exact exists_and_left
    · exact exists_and_left

/-- Where the loop compares, the result and the positions. -/
abbrev compared (buf name : ℕ → Byte) (offset : BitVec 32) : Bool × List ℕ :=
  compareName buf name (offset.toNat + 8) (entryNameLen buf offset.toNat) 0

/-- One turn of the loop of `ext2_node_finddir`, with what it returns. -/
theorem finddirWalk_ends {name : ℕ → Byte} {r : Option ℕ} (h : offset < size) :
    EndsInside blockSize (finddirWalk buf size name · offset) r ↔
      if entryRecLen buf offset.toNat = 0 then r = none ∧ offset.toNat + 6 ≤ blockSize
      else if entryInode buf offset.toNat ≠ 0 then
        (offset.toNat + 7 ≤ blockSize ∧ ∀ p ∈ (compared buf name offset).2, p < blockSize) ∧
          if (compared buf name offset).1 then r = some (entryInode buf offset.toNat)
          else EndsInside blockSize (finddirWalk buf size name · (nextOffset buf offset)) r
      else
        offset.toNat + 6 ≤ blockSize ∧
          EndsInside blockSize (finddirWalk buf size name · (nextOffset buf offset)) r := by
  split
  · rename_i hlen
    rw [← bytesAt_inside (p := offset.toNat + 4) (n := 2) (by decide)]
    refine endsInside_stop fun fuel => ?_
    rw [finddirWalk, if_pos h]
    exact if_pos hlen
  · rename_i hlen
    split
    · rename_i hlive
      rw [← bytesAt_inside (p := offset.toNat) (n := 7) (by decide), ← List.forall_mem_append]
      split
      · rename_i hhit
        rw [and_comm]
        refine endsInside_stop fun fuel => ?_
        rw [finddirWalk, if_pos h]
        dsimp only
        rw [if_neg hlen, if_pos hlive, if_pos hhit]
      · rename_i hmiss
        refine endsInside_turn fun fuel => ?_
        rw [finddirWalk, if_pos h]
        dsimp only
        rw [if_neg hlen, if_pos hlive, if_neg hmiss]
    · rename_i hdead
      rw [← bytesAt_inside (p := offset.toNat) (n := 6) (by decide)]
      refine endsInside_turn fun fuel => ?_
      rw [finddirWalk, if_pos h]
      dsimp only
      rw [if_neg hlen, if_neg hdead]

theorem finddirWalk_stays {name : ℕ → Byte} (h : offset < size) :
    StaysInside blockSize (finddirWalk buf size name · offset) ↔
      if entryRecLen buf offset.toNat = 0 then offset.toNat + 6 ≤ blockSize
      else if entryInode buf offset.toNat ≠ 0 then
        (offset.toNat + 7 ≤ blockSize ∧ ∀ p ∈ (compared buf name offset).2, p < blockSize) ∧
          ((compared buf name offset).1 = false →
            StaysInside blockSize (finddirWalk buf size name · (nextOffset buf offset)))
      else
        offset.toNat + 6 ≤ blockSize ∧
          StaysInside blockSize (finddirWalk buf size name · (nextOffset buf offset)) := by
  simp only [StaysInside, finddirWalk_ends h]
  split
  · exact exists_eq_left
  · split
    · rw [exists_and_left]
      refine and_congr_right fun _ => ?_
      cases (compared buf name offset).1 with
      | true => exact iff_of_true ⟨_, rfl⟩ fun hmiss => by cases hmiss
      | false => exact ⟨fun hrest _ => hrest, fun hrest => hrest rfl⟩
    · exact exists_and_left

end Turn

/-! ### Comparing -/

section Compare

variable {buf name : ℕ → Byte} {p : ℕ}

theorem compareName_hit {n i : ℕ} : (compareName buf name p n i).1 = true ↔
    (∀ k, i ≤ k → k < i + n → buf (p + k) = name k) ∧ name (i + n) = 0 := by
  induction n generalizing i with
  | zero =>
      rw [compareName, decide_eq_true_eq, Nat.add_zero]
      exact (and_iff_right fun k hlo hhi => absurd hhi (Nat.not_lt.mpr hlo)).symm
  | succ n ih =>
      rw [compareName]
      split
      · rename_i hne
        exact iff_of_false (by simp) fun h => hne (h.1 i (Nat.le_refl i) (by omega))
      · rename_i heq
        rw [ih, Nat.succ_add_eq_add_succ]
        refine and_congr_left fun _ =>
          ⟨fun h k hlo hhi => ?_, fun h k hlo hhi => h k (by omega) hhi⟩
        rcases Nat.eq_or_lt_of_le hlo with rfl | hlt
        · exact not_not.mp heq
        · exact h k hlt hhi

/-- A character is compared if the ones before it agree. -/
theorem mem_compareName {n i q : ℕ} : q ∈ (compareName buf name p n i).2 ↔
    ∃ j, i ≤ j ∧ j < i + n ∧ q = p + j ∧ ∀ k, i ≤ k → k < j → buf (p + k) = name k := by
  induction n generalizing i with
  | zero =>
      refine iff_of_false List.not_mem_nil ?_
      rintro ⟨j, hlo, hhi, -⟩
      omega
  | succ n ih =>
      rw [compareName]
      split
      · rename_i hne
        rw [List.mem_singleton]
        constructor
        · rintro rfl
          exact ⟨i, Nat.le_refl i, by omega, rfl, fun k hlo hhi => absurd hhi (Nat.not_lt.mpr hlo)⟩
        · rintro ⟨j, hlo, hhi, rfl, hsame⟩
          rcases Nat.eq_or_lt_of_le hlo with rfl | hlt
          · rfl
          · exact absurd (hsame i (Nat.le_refl i) hlt) hne
      · rename_i heq
        rw [List.mem_cons, ih]
        constructor
        · rintro (rfl | ⟨j, hlo, hhi, rfl, hsame⟩)
          · exact ⟨i, Nat.le_refl i, by omega, rfl,
              fun k hlo hhi => absurd hhi (Nat.not_lt.mpr hlo)⟩
          · refine ⟨j, by omega, by omega, rfl, fun k hlo' hhi' => ?_⟩
            rcases Nat.eq_or_lt_of_le hlo' with rfl | hlt
            · exact not_not.mp heq
            · exact hsame k hlt hhi'
        · rintro ⟨j, hlo, hhi, rfl, hsame⟩
          rcases Nat.eq_or_lt_of_le hlo with rfl | hlt
          · exact .inl rfl
          · exact .inr ⟨j, hlt, by omega, rfl, fun k hlo' hhi' => hsame k (by omega) hhi'⟩

end Compare

/-! ### The records of the block -/

/-- The name of the record at `offset`. -/
def nameAt (buf : ℕ → Byte) (offset : ℕ) : List Byte :=
  slice buf (offset + 8) (entryNameLen buf offset)

/-- From `offset` on the records that are reached lie in the block, with their headers and, where
they are live, their names.  The name of a live record may go on behind the block (`cut`) if its
first 127 bytes lie in it and it begins there with one of the `names` of the live records before and
a NUL, as it is never compared beyond that. -/
inductive RecordsInside (buf : ℕ → Byte) (blockSize size : ℕ) : List (List Byte) → ℕ → Prop where
  | past {names : List (List Byte)} {offset : ℕ} (hsize : size ≤ offset) :
      RecordsInside buf blockSize size names offset
  | last {names : List (List Byte)} {offset : ℕ} (hin : offset + 6 ≤ blockSize)
      (hlen : entryRecLen buf offset = 0) : RecordsInside buf blockSize size names offset
  | deleted {names : List (List Byte)} {offset : ℕ} (hin : offset + 6 ≤ blockSize)
      (hdead : entryInode buf offset = 0)
      (rest : RecordsInside buf blockSize size names (offset + entryRecLen buf offset)) :
      RecordsInside buf blockSize size names offset
  | live {names : List (List Byte)} {offset : ℕ} (hlive : entryInode buf offset ≠ 0)
      (hin : offset + 8 + entryNameLen buf offset ≤ blockSize)
      (rest : RecordsInside buf blockSize size (names ++ [nameAt buf offset])
        (offset + entryRecLen buf offset)) : RecordsInside buf blockSize size names offset
  | cut {names : List (List Byte)} {offset : ℕ} (hlive : entryInode buf offset ≠ 0)
      (hin : offset + 8 + 127 ≤ blockSize) {name : List Byte}
      (hname : name ∈ names) (hend : offset + 8 + name.length < blockSize)
      (hholds : Holds buf (offset + 8) (name ++ [0]))
      (rest : RecordsInside buf blockSize size names (offset + entryRecLen buf offset)) :
      RecordsInside buf blockSize size names offset

section Inside

variable {buf : ℕ → Byte} {size : BitVec 32} {blockSize : ℕ} {names : List (List Byte)}

/-- Within a block the offset does not wrap. -/
theorem nextOffset_toNat (hbs : blockSize ≤ blockBuf) {offset : BitVec 32}
    (hin : offset.toNat + 6 ≤ blockSize) :
    (nextOffset buf offset).toNat = offset.toNat + entryRecLen buf offset.toNat := by
  have hlen : entryRecLen buf offset.toNat < 256 ^ 2 := leAt_lt _ _ _
  unfold blockBuf at hbs
  rw [nextOffset, BitVec.toNat_add, BitVec.toNat_ofNat]
  omega

theorem endsInside_past {offset : BitVec 32} (h : ¬ offset < size) :
    (∀ index current, EndsInside blockSize (readdirWalk buf size index · offset current) none) ∧
      ∀ name, EndsInside blockSize (finddirWalk buf size name · offset) none :=
  ⟨fun _ _ => ⟨[], .stop fun _ => by rw [readdirWalk, if_neg h], fun _ hp => by cases hp⟩,
    fun _ => ⟨[], .stop fun _ => by rw [finddirWalk, if_neg h], fun _ hp => by cases hp⟩⟩

/-- Where the records lie in the block, so does what `ext2_node_readdir` inspects. -/
theorem RecordsInside.readdir (hbs : blockSize ≤ blockBuf) {o : ℕ}
    (h : RecordsInside buf blockSize size.toNat names o) (index : BitVec 32) :
    ∀ {offset : BitVec 32} (current : BitVec 32), offset.toNat = o →
      StaysInside blockSize (readdirWalk buf size index · offset current) := by
  -- what is left to show where the record is in the block as far as it is read
  have hturn : ∀ {offset current : BitVec 32},
      offset.toNat + 6 ≤ blockSize → (entryInode buf offset.toNat ≠ 0 →
        offset.toNat + (8 + min (entryNameLen buf offset.toNat) 127) ≤ blockSize) →
      (∀ current, StaysInside blockSize
        (readdirWalk buf size index · (nextOffset buf offset) current)) →
      StaysInside blockSize (readdirWalk buf size index · offset current) := by
    intro offset current hin hname hrest
    by_cases hlt : offset < size
    · rw [readdirWalk_stays hlt]
      split
      · exact hin
      · split
        · split
          · exact hname ‹_›
          · exact ⟨hin, hrest _⟩
        · exact ⟨hin, hrest _⟩
    · exact ⟨none, (endsInside_past hlt).1 index current⟩
  induction h with
  | past hsize =>
      rintro offset current rfl
      exact ⟨none, (endsInside_past fun hlt => Nat.not_lt.mpr hsize (BitVec.lt_def.mp hlt)).1 index
        current⟩
  | last hin hlen =>
      rintro offset current rfl
      by_cases hlt : offset < size
      · rw [readdirWalk_stays hlt, if_pos hlen]
        exact hin
      · exact ⟨none, (endsInside_past hlt).1 index current⟩
  | deleted hin hdead _ ih =>
      rintro offset current rfl
      exact hturn hin (fun hlive => absurd hdead hlive) fun current =>
        ih current (nextOffset_toNat hbs hin)
  | live hlive hin _ ih =>
      rintro offset current rfl
      exact hturn (by omega) (fun _ => by omega) fun current =>
        ih current (nextOffset_toNat hbs (by omega))
  | cut hlive hin _ _ _ _ ih =>
      rintro offset current rfl
      exact hturn (by omega) (fun _ => by omega) fun current =>
        ih current (nextOffset_toNat hbs (by omega))

/-- The argument is the name. -/
def Spells (name : ℕ → Byte) (bs : List Byte) : Prop := Holds name 0 (bs ++ [0])

theorem spells_iff {name : ℕ → Byte} {bs : List Byte} :
    Spells name bs ↔ Holds name 0 bs ∧ name bs.length = 0 := by
  rw [Spells, holds_append, holds_cons, and_iff_left holds_nil, Nat.zero_add]

/-- The comparison matches if the argument is the name of the entry. -/
theorem compared_hit {name : ℕ → Byte} {offset : BitVec 32} :
    (compared buf name offset).1 = true ↔ Spells name (nameAt buf offset.toNat) := by
  rw [compared, compareName_hit, spells_iff, nameAt, length_slice, Nat.zero_add]
  refine and_congr_left fun _ => ⟨?_, ?_⟩
  · intro h k b hb
    have hk := (List.getElem?_eq_some_iff.mp hb).1
    rw [length_slice] at hk
    rw [getElem?_slice _ _ hk] at hb
    rw [← Option.some.inj hb, Nat.zero_add]
    exact (h k (Nat.zero_le k) hk).symm
  · intro h k _ hk
    have hname := h k _ (getElem?_slice _ _ hk)
    rw [Nat.zero_add] at hname
    exact hname.symm

/-- Where the records lie in the block, so does what `ext2_node_finddir` inspects for a name that is
none of those before. -/
theorem RecordsInside.finddir (hbs : blockSize ≤ blockBuf) {o : ℕ} {name : ℕ → Byte}
    (h : RecordsInside buf blockSize size.toNat names o) :
    ∀ {offset : BitVec 32}, (∀ n ∈ names, ¬ Spells name n) → offset.toNat = o →
      StaysInside blockSize (finddirWalk buf size name · offset) := by
  have hturn : ∀ {offset : BitVec 32}, entryInode buf offset.toNat ≠ 0 →
      offset.toNat + 7 ≤ blockSize → (∀ p ∈ (compared buf name offset).2, p < blockSize) →
      (¬ Spells name (nameAt buf offset.toNat) →
        StaysInside blockSize (finddirWalk buf size name · (nextOffset buf offset))) →
      StaysInside blockSize (finddirWalk buf size name · offset) := by
    intro offset hlive hin hseen hrest
    by_cases hlt : offset < size
    · rw [finddirWalk_stays hlt, if_pos hlive]
      split
      · omega
      · refine ⟨⟨hin, hseen⟩, fun hmiss => hrest fun hspells => ?_⟩
        rw [← compared_hit, hmiss] at hspells
        cases hspells
    · exact ⟨none, (endsInside_past hlt).2 name⟩
  induction h with
  | past hsize =>
      rintro offset - rfl
      exact ⟨none, (endsInside_past fun hlt => Nat.not_lt.mpr hsize (BitVec.lt_def.mp hlt)).2 name⟩
  | last hin hlen =>
      rintro offset - rfl
      by_cases hlt : offset < size
      · rw [finddirWalk_stays hlt, if_pos hlen]
        exact hin
      · exact ⟨none, (endsInside_past hlt).2 name⟩
  | deleted hin hdead _ ih =>
      rintro offset hnames rfl
      have hrest := ih hnames (nextOffset_toNat hbs hin)
      by_cases hlt : offset < size
      · rw [finddirWalk_stays hlt, if_neg (not_not_intro hdead)]
        split
        · exact hin
        · exact ⟨hin, hrest⟩
      · exact ⟨none, (endsInside_past hlt).2 name⟩
  | live hlive hin _ ih =>
      rintro offset hnames rfl
      refine hturn hlive (by omega) (fun p hp => ?_) fun hmiss =>
        ih (fun n hn => ?_) (nextOffset_toNat hbs (by omega))
      · obtain ⟨j, -, hj, rfl, -⟩ := mem_compareName.mp hp
        omega
      · rcases List.mem_append.mp hn with hn | hn
        · exact hnames n hn
        · rwa [List.mem_singleton.mp hn]
  | @cut names o hlive hin n hn hend hholds _ ih =>
      rintro offset hnames rfl
      refine hturn hlive (by omega) (fun p hp => ?_) fun _ =>
        ih hnames (nextOffset_toNat hbs (by omega))
      obtain ⟨j, -, hj, rfl, hsame⟩ := mem_compareName.mp hp
      -- a name that agreed behind the NUL would be one of those before
      have hj' : j ≤ n.length := by
        by_contra hfar
        refine hnames n hn fun k b hb => ?_
        have hk := (List.getElem?_eq_some_iff.mp hb).1
        rw [List.length_append, List.length_singleton] at hk
        rw [Nat.zero_add, ← hsame k (Nat.zero_le k) (by omega)]
        exact hholds k b hb
      omega

/-- If no name makes the comparison leave the block, a name that goes on behind it has a name of
those before and a NUL in the block: otherwise the part in the block, and then 1s, would be a name
that leaves it. -/
theorem exists_name_of_cut {offset : BitVec 32} (hin : offset.toNat + 8 ≤ blockSize)
    (hout : blockSize < offset.toNat + 8 + entryNameLen buf offset.toNat)
    (hshort : ∀ n ∈ names, n.length < 256)
    (hseen : ∀ name : ℕ → Byte, (∃ k, name k = 0) → (∀ n ∈ names, ¬ Spells name n) →
      ∀ p ∈ (compared buf name offset).2, p < blockSize) :
    ∃ n ∈ names, offset.toNat + 8 + n.length < blockSize ∧
      Holds buf (offset.toNat + 8) (n ++ [0]) := by
  by_contra hnone
  let name : ℕ → Byte := fun i =>
    if i < blockSize - (offset.toNat + 8) then buf (offset.toNat + 8 + i)
    else if i < blockSize + 256 then 1 else 0
  have hpart : ∀ k < blockSize - (offset.toNat + 8), name k = buf (offset.toNat + 8 + k) :=
    fun k hk => if_pos hk
  have hfresh : ∀ n ∈ names, ¬ Spells name n := by
    intro n hn hspells
    have hlen := hshort n hn
    by_cases hk : n.length < blockSize - (offset.toNat + 8)
    · refine hnone ⟨n, hn, by omega, fun k b hb => ?_⟩
      have hk' := (List.getElem?_eq_some_iff.mp hb).1
      rw [List.length_append, List.length_singleton] at hk'
      rw [← hpart k (by omega), ← hspells k b hb, Nat.zero_add]
    · have hone : name n.length = 1 := (if_neg hk).trans (if_pos (by omega))
      rw [(spells_iff.mp hspells).2] at hone
      exact absurd hone (by decide)
  have hend : name (blockSize + 256) = 0 := (if_neg (by omega)).trans (if_neg (by omega))
  have hleft := hseen name ⟨_, hend⟩ hfresh blockSize (mem_compareName.mpr
    ⟨blockSize - (offset.toNat + 8), Nat.zero_le _, by omega, by omega,
      fun k _ hk => (hpart k hk).symm⟩)
  exact Nat.lt_irrefl _ hleft

/-- A name that goes on behind one of those before and a NUL is not the argument, if that is not. -/
theorem not_spells_cut {name : ℕ → Byte} {n : List Byte} {offset : ℕ} (hn : ¬ Spells name n)
    (hlen : n.length < entryNameLen buf offset) (hholds : Holds buf (offset + 8) (n ++ [0])) :
    ¬ Spells name (nameAt buf offset) := by
  intro hspells
  refine hn fun k b hb => ?_
  have hk := (List.getElem?_eq_some_iff.mp hb).1
  rw [List.length_append, List.length_singleton] at hk
  have hname := (spells_iff.mp hspells).1 k _ (getElem?_slice _ _ (by omega))
  exact hname.trans (hholds k b hb)

/-- From `offset` on no walk leaves the block: neither one that has counted up to `current`, nor one
for a name that is none of those before. -/
structure WalksStay (buf : ℕ → Byte) (blockSize : ℕ) (size : BitVec 32) (names : List (List Byte))
    (offset current : BitVec 32) : Prop where
  readdir : ∀ index : BitVec 32, current.toNat ≤ index.toNat →
    StaysInside blockSize (readdirWalk buf size index · offset current)
  finddir : ∀ name : ℕ → Byte, (∃ k, name k = 0) → (∀ n ∈ names, ¬ Spells name n) →
    StaysInside blockSize (finddirWalk buf size name · offset)

namespace WalksStay

variable {offset current : BitVec 32}

theorem last (h : WalksStay buf blockSize size names offset current) (hlt : offset < size)
    (hlen : entryRecLen buf offset.toNat = 0) : offset.toNat + 6 ≤ blockSize := by
  have hhit := (readdirWalk_stays hlt).mp (h.readdir current (Nat.le_refl _))
  rwa [if_pos hlen] at hhit

/-- Behind a record that is deleted the walks go on as they are. -/
theorem deleted (h : WalksStay buf blockSize size names offset current) (hlt : offset < size)
    (hlen : entryRecLen buf offset.toNat ≠ 0) (hdead : ¬ entryInode buf offset.toNat ≠ 0) :
    offset.toNat + 6 ≤ blockSize ∧
      WalksStay buf blockSize size names (nextOffset buf offset) current := by
  have hhit := (readdirWalk_stays hlt).mp (h.readdir current (Nat.le_refl _))
  rw [if_neg hlen, if_neg hdead] at hhit
  refine ⟨hhit.1, ?_, ?_⟩
  · intro index hindex
    have hturn := (readdirWalk_stays hlt).mp (h.readdir index hindex)
    rw [if_neg hlen, if_neg hdead] at hturn
    exact hturn.2
  · intro name hnul hnames
    have hturn := (finddirWalk_stays hlt).mp (h.finddir name hnul hnames)
    rw [if_neg hlen, if_neg hdead] at hturn
    exact hturn.2

/-- At a live record `ext2_node_readdir` returns the entry that is counted next. -/
theorem copied (h : WalksStay buf blockSize size names offset current) (hlt : offset < size)
    (hlen : entryRecLen buf offset.toNat ≠ 0) (hlive : entryInode buf offset.toNat ≠ 0) :
    offset.toNat + (8 + min (entryNameLen buf offset.toNat) 127) ≤ blockSize := by
  have hhit := (readdirWalk_stays hlt).mp (h.readdir current (Nat.le_refl _))
  rwa [if_neg hlen, if_pos hlive, if_pos rfl] at hhit

theorem seen (h : WalksStay buf blockSize size names offset current) (hlt : offset < size)
    (hlen : entryRecLen buf offset.toNat ≠ 0) (hlive : entryInode buf offset.toNat ≠ 0)
    (name : ℕ → Byte) (hnul : ∃ k, name k = 0) (hnames : ∀ n ∈ names, ¬ Spells name n) :
    ∀ p ∈ (compared buf name offset).2, p < blockSize := by
  have hturn := (finddirWalk_stays hlt).mp (h.finddir name hnul hnames)
  rw [if_neg hlen, if_pos hlive] at hturn
  exact hturn.1.2

/-- Behind it go on the walks that count further, and those for another name. -/
theorem live (h : WalksStay buf blockSize size names offset current) (hlt : offset < size)
    (hlen : entryRecLen buf offset.toNat ≠ 0) (hlive : entryInode buf offset.toNat ≠ 0)
    (hcount : (current + 1).toNat = current.toNat + 1) {names' : List (List Byte)}
    (hnames' : ∀ name, (∀ n ∈ names', ¬ Spells name n) →
      (∀ n ∈ names, ¬ Spells name n) ∧ ¬ Spells name (nameAt buf offset.toNat)) :
    WalksStay buf blockSize size names' (nextOffset buf offset) (current + 1) := by
  constructor
  · intro index hindex
    have hturn := (readdirWalk_stays hlt).mp (h.readdir index (by omega))
    rw [if_neg hlen, if_pos hlive, if_neg (by rintro rfl; omega)] at hturn
    exact hturn.2
  · intro name hnul hfresh
    obtain ⟨hnames, hother⟩ := hnames' name hfresh
    have hturn := (finddirWalk_stays hlt).mp (h.finddir name hnul hnames)
    rw [if_neg hlen, if_pos hlive] at hturn
    refine hturn.2 (Bool.eq_false_iff.mpr ?_)
    intro hcompared
    exact hother (compared_hit.mp hcompared)

end WalksStay

/-- Where all walks from `offset` on stay in the block, the records lie in it. -/
theorem recordsInside_of_walks (hbs : blockSize ≤ blockBuf) (left : ℕ) :
    ∀ {names : List (List Byte)} {offset current : BitVec 32},
    left = size.toNat - offset.toNat → current.toNat ≤ offset.toNat →
    (∀ n ∈ names, n.length < 256) → WalksStay buf blockSize size names offset current →
    RecordsInside buf blockSize size.toNat names offset.toNat := by
  induction left using Nat.strong_induction_on with
  | _ left ih =>
      intro names offset current hleft hcurrent hshort h
      by_cases hlt : offset < size
      swap
      · exact .past (Nat.not_lt.mp fun hlt' => hlt (BitVec.lt_def.mpr hlt'))
      by_cases hlen : entryRecLen buf offset.toNat = 0
      · exact .last (h.last hlt hlen) hlen
      have hlt' := BitVec.lt_def.mp hlt
      by_cases hlive : entryInode buf offset.toNat ≠ 0
      · have hin := h.copied hlt hlen hlive
        have hnext : (nextOffset buf offset).toNat = _ := nextOffset_toNat hbs (by omega)
        unfold blockBuf at hbs
        have hcount : (current + 1).toNat = current.toNat + 1 := by
          rw [BitVec.toNat_add]
          exact Nat.mod_eq_of_lt (by change current.toNat + 1 < 2 ^ 32; omega)
        have hnameLen : entryNameLen buf offset.toNat < 256 := (buf (offset.toNat + 6)).isLt
        by_cases hfit : offset.toNat + 8 + entryNameLen buf offset.toNat ≤ blockSize
        · have hrest : WalksStay buf blockSize size (names ++ [nameAt buf offset.toNat])
              (nextOffset buf offset) (current + 1) := by
            refine h.live hlt hlen hlive hcount ?_
            intro name hfresh
            exact ⟨fun n hn => hfresh n (List.mem_append_left _ hn),
              hfresh _ (List.mem_append_right _ (List.mem_singleton_self _))⟩
          refine .live hlive hfit (hnext ▸ ih _ (by omega) rfl (by omega) ?_ hrest)
          intro n hn
          rcases List.mem_append.mp hn with hn | hn
          · exact hshort n hn
          · rwa [List.mem_singleton.mp hn, nameAt, length_slice]
        · obtain ⟨n, hn, hend, hholds⟩ := exists_name_of_cut (by omega) (by omega) hshort
            (h.seen hlt hlen hlive)
          have hrest : WalksStay buf blockSize size names (nextOffset buf offset)
              (current + 1) := by
            refine h.live hlt hlen hlive hcount ?_
            intro name hfresh
            exact ⟨hfresh, not_spells_cut (hfresh n hn) (by omega) hholds⟩
          exact .cut hlive (by omega) hn hend hholds (hnext ▸ ih _ (by omega) rfl (by omega) hshort
            hrest)
      · obtain ⟨hin, hrest⟩ := h.deleted hlt hlen hlive
        have hnext : (nextOffset buf offset).toNat = _ := nextOffset_toNat hbs hin
        exact .deleted hin (not_not.mp hlive)
          (hnext ▸ ih _ (by omega) rfl (hcurrent.trans (by omega)) hshort hrest)

end Inside

/-! ### The buffer -/

section Buffer

variable {buf buf' : ℕ → Byte} {blockSize offset : ℕ}

theorem header_congr (hsame : ∀ i < blockSize, buf' i = buf i) (hin : offset + 6 ≤ blockSize) :
    entryInode buf' offset = entryInode buf offset ∧
      entryRecLen buf' offset = entryRecLen buf offset :=
  ⟨leAt_congr fun x _ hx => hsame x (by omega), leAt_congr fun x _ hx => hsame x (by omega)⟩

theorem nameLen_congr (hsame : ∀ i < blockSize, buf' i = buf i) (hin : offset + 7 ≤ blockSize) :
    entryNameLen buf' offset = entryNameLen buf offset :=
  congrArg BitVec.toNat (hsame _ (by omega))

/-- What lies behind the block does not matter to the records in it. -/
theorem RecordsInside.congr {size : ℕ} {names : List (List Byte)}
    (hsame : ∀ i < blockSize, buf' i = buf i) (h : RecordsInside buf blockSize size names offset) :
    RecordsInside buf' blockSize size names offset := by
  induction h with
  | past hsize => exact .past hsize
  | last hin hlen => exact .last hin ((header_congr hsame hin).2.trans hlen)
  | deleted hin hdead _ ih =>
      obtain ⟨hinode, hlen⟩ := header_congr hsame hin
      exact .deleted hin (hinode.trans hdead) (hlen ▸ ih)
  | @live names offset hlive hin _ ih =>
      obtain ⟨hinode, hlen⟩ := header_congr hsame (show offset + 6 ≤ blockSize by omega)
      have hcount := nameLen_congr hsame (show offset + 7 ≤ blockSize by omega)
      have hname : nameAt buf' offset = nameAt buf offset := by
        rw [nameAt, nameAt, hcount]
        exact slice_eq_slice.mpr fun i hi => hsame _ (by omega)
      exact .live (hinode ▸ hlive) (hcount ▸ hin) (hlen ▸ hname ▸ ih)
  | @cut names offset hlive hin name hname hend hholds _ ih =>
      obtain ⟨hinode, hlen⟩ := header_congr hsame (show offset + 6 ≤ blockSize by omega)
      refine .cut (hinode ▸ hlive) hin hname hend (hholds.of_agree fun a _ ha => ?_) (hlen ▸ ih)
      rw [List.length_append, List.length_singleton] at ha
      exact hsame a (by omega)

end Buffer

section Directory

variable (E : Ext2) (disk : Disk) (inode : Inode) (stack : ℕ → Byte)

/-- `b_buf` after `ext2_read_block`, and the stack behind it. -/
def dirBuffer : ℕ → Byte :=
  pataReadSectors disk (inode.block 0 * E.sectorsPerBlock % 2 ^ 32) (E.sectorsPerBlock % 256) stack

/-- The walks over a directory end, and inspect bytes of the block only, for every index and every
name that ends. -/
structure WalksInside : Prop where
  readdir : ∀ index, StaysInside E.blockSize
    (readdirWalk (dirBuffer E disk inode stack) (BitVec.ofNat 32 inode.size) index · 0 0)
  finddir : ∀ name : ℕ → Byte, (∃ k, name k = 0) → StaysInside E.blockSize
    (finddirWalk (dirBuffer E disk inode stack) (BitVec.ofNat 32 inode.size) name · 0)

end Directory

variable {E : Ext2} {disk : Disk} {inode : Inode} {stack : ℕ → Byte}

theorem dirBuffer_block (hE : E.Sized) {i : ℕ} (hi : i < E.blockSize) :
    dirBuffer E disk inode stack i = E.block disk (inode.block 0) i := by
  rw [dirBuffer, Ext2.block, pataReadSectors, pataReadSectors, hE.sectors.1, if_pos hi, if_pos hi]

theorem WalksInside.recordsInside (hE : E.Sized) (h : WalksInside E disk inode stack) :
    RecordsInside (E.block disk (inode.block 0)) E.blockSize inode.size [] 0 := by
  have hrecords := recordsInside_of_walks hE.sectors.2.1 _ rfl
    (Nat.le_refl (0 : BitVec 32).toNat) (fun n hn => absurd hn List.not_mem_nil)
    ⟨fun index _ => h.readdir index, fun name hnul _ => h.finddir name hnul⟩
  rw [Inode.toNat_size] at hrecords
  exact hrecords.congr fun i hi => (dirBuffer_block hE hi).symm

/-- **Directory walks and corrupt images.**  Whatever the size of the inode and the content of the
block, and whatever the stack holds, the walks end and inspect bytes of the block only exactly if
the records that are reached lie in the block. -/
theorem directory_walks_inside_iff (hE : E.Sized) (disk : Disk) (inode : Inode)
    (stack : ℕ → Byte) : WalksInside E disk inode stack ↔
      RecordsInside (E.block disk (inode.block 0)) E.blockSize inode.size [] 0 := by
  refine ⟨fun h => h.recordsInside hE, fun h => ?_⟩
  have hrecords : RecordsInside (dirBuffer E disk inode stack) E.blockSize inode.size [] 0 :=
    h.congr fun _ hi => dirBuffer_block hE hi
  rw [← Inode.toNat_size] at hrecords
  exact ⟨fun index => hrecords.readdir hE.sectors.2.1 index 0 rfl,
    fun name _ => hrecords.finddir hE.sectors.2.1 (fun n hn => by cases hn) rfl⟩

/-! ### The walks and the loops of the model -/

section Loops

variable (disk inode stack)

/-- What the walks read of a record whose header is in the block. -/
theorem dirBuffer_header (hE : E.Sized) {o : ℕ} (hin : o + 6 ≤ E.blockSize) :
    entryInode (dirBuffer E disk inode stack) o = entryInode (E.block disk (inode.block 0)) o ∧
      entryRecLen (dirBuffer E disk inode stack) o =
        entryRecLen (E.block disk (inode.block 0)) o :=
  header_congr (fun _ hi => dirBuffer_block hE hi) hin

theorem dirBuffer_nameLen (hE : E.Sized) {o : ℕ} (hin : o + 7 ≤ E.blockSize) :
    entryNameLen (dirBuffer E disk inode stack) o =
      entryNameLen (E.block disk (inode.block 0)) o :=
  nameLen_congr (fun _ hi => dirBuffer_block hE hi) hin

theorem direntAt_block (hE : E.Sized) {o : ℕ}
    (hin : o + 8 + min (entryNameLen (E.block disk (inode.block 0)) o) 127 ≤ E.blockSize) :
    direntAt (dirBuffer E disk inode stack) o =
      direntAt (E.block disk (inode.block 0)) o := by
  have hcount := dirBuffer_nameLen disk inode stack hE
    (show o + 7 ≤ E.blockSize by omega)
  obtain ⟨hinode, -⟩ := dirBuffer_header disk inode stack hE
    (show o + 6 ≤ E.blockSize by omega)
  have htype : entryFileType (dirBuffer E disk inode stack) o = entryFileType _ o :=
    dirBuffer_block hE (show o + 7 < E.blockSize by omega)
  rw [direntAt, direntAt, hcount, hinode, htype]
  congr 1
  exact slice_eq_slice.mpr fun i hi => dirBuffer_block hE (by omega)

/-- Where the loop of `ext2_node_readdir` returns, the walk returns the same, inside the block. -/
theorem readdirWalk_of_loop (hE : E.Sized) {index : BitVec 32} {r : Option Dirent} (left : ℕ) :
    ∀ {offset current : BitVec 32}, left = inode.size - offset.toNat →
    current.toNat ≤ offset.toNat →
    readdirLoop E disk inode index.toNat offset.toNat current.toNat = .ok r →
    EndsInside E.blockSize (readdirWalk (dirBuffer E disk inode stack)
      (BitVec.ofNat 32 inode.size) index · offset current) r := by
  induction left using Nat.strong_induction_on with
  | _ left ih =>
      intro offset current hleft hcurrent h
      have hbs := hE.sectors.2.1
      have hlt : offset < BitVec.ofNat 32 inode.size ↔ offset.toNat < inode.size := by
        rw [BitVec.lt_def, inode.toNat_size]
      rw [readdirLoop.eq_1, ext2ReadBlock_eq hE] at h
      by_cases hoff : offset.toNat < inode.size
      swap
      · rw [if_neg hoff] at h
        cases h
        exact (endsInside_past (mt hlt.mp hoff)).1 index current
      rw [if_pos hoff] at h
      dsimp only at h
      split at h
      · cases h
      rename_i hin
      rw [Nat.not_lt] at hin
      obtain ⟨hinode, hlen⟩ := dirBuffer_header disk inode stack hE hin
      have hnext : (nextOffset (dirBuffer E disk inode stack) offset).toNat = _ :=
        nextOffset_toNat hbs hin
      unfold blockBuf at hbs
      rw [readdirWalk_ends (hlt.mpr hoff), hinode, hlen]
      split at h
      · rename_i hzero
        cases h
        rw [if_pos hzero]
        exact ⟨rfl, hin⟩
      rename_i hzero
      rw [if_neg hzero]
      split at h
      · rename_i hhit
        split at h
        · cases h
        rename_i hname
        cases h
        rw [if_pos hhit.1, if_pos (BitVec.eq_of_toNat_eq hhit.2),
          direntAt_block disk inode stack hE (Nat.not_lt.mp hname),
          dirBuffer_nameLen disk inode stack hE (by omega)]
        exact ⟨rfl, by omega⟩
      · rename_i hother
        have hcount : (current + 1).toNat = current.toNat + 1 := by
          rw [BitVec.toNat_add]
          exact Nat.mod_eq_of_lt (show current.toNat + 1 < 2 ^ 32 by omega)
        rw [← hlen, ← hnext] at h
        by_cases hlive : entryInode (E.block disk (inode.block 0)) offset.toNat ≠ 0
        · rw [if_pos hlive, ← hcount] at h
          have hne : ¬ current = index := fun e => hother ⟨hlive, congrArg BitVec.toNat e⟩
          rw [if_pos hlive, if_neg hne]
          exact ⟨hin, ih _ (by omega) rfl (by omega) h⟩
        · rw [if_neg hlive] at h
          rw [if_neg hlive]
          exact ⟨hin, ih _ (by omega) rfl (by omega) h⟩

/-- A character of the argument, up to its end. -/
theorem charAt_of_spells {arg : ℕ → Byte} {name : List StrChar} {i : ℕ} {c : Byte}
    (harg : Spells arg (name.map Subtype.val)) (h : charAt name i = .ok c) : arg i = c := by
  obtain ⟨hchars, hend⟩ := spells_iff.mp harg
  rw [List.length_map] at hend
  rw [charAt] at h
  split at h
  · rename_i hi
    cases h
    have hget := hchars i _ (List.getElem?_eq_getElem (by rwa [List.length_map]))
    rwa [Nat.zero_add, List.getElem_map] at hget
  · split at h
    · rename_i hi
      cases h
      rwa [hi]
    · cases h

/-- A comparison that does not leave the argument or the block is the one of the walk. -/
theorem compareName_of_match {buf buf' arg : ℕ → Byte} {name : List StrChar} {p n i : ℕ} {b : Bool}
    (hsame : ∀ i < E.blockSize, buf' i = buf i) (harg : Spells arg (name.map Subtype.val))
    (h : matchName E buf p name n i = .ok b) :
    (compareName buf' arg p n i).1 = b ∧ ∀ q ∈ (compareName buf' arg p n i).2, q < E.blockSize := by
  induction n generalizing i with
  | zero =>
      rw [matchName] at h
      split at h
      · cases h
      · rename_i c hc
        cases h
        rw [compareName, charAt_of_spells harg hc]
        exact ⟨rfl, fun q hq => by cases hq⟩
  | succ n ih =>
      rw [matchName] at h
      split at h
      · cases h
      rename_i hin
      rw [Nat.not_le] at hin
      split at h
      · cases h
      rename_i c hc
      rw [compareName, hsame _ hin, charAt_of_spells harg hc]
      split at h
      · rename_i hne
        cases h
        rw [if_pos hne]
        exact ⟨rfl, fun q hq => List.mem_singleton.mp hq ▸ hin⟩
      · rename_i heq
        obtain ⟨hrest, hseen⟩ := ih h
        rw [if_neg heq]
        exact ⟨hrest, List.forall_mem_cons.mpr ⟨hin, hseen⟩⟩

/-- Where the loop of `ext2_node_finddir` returns, the walk returns the inode found, inside the
block. -/
theorem finddirWalk_of_loop (hE : E.Sized) {name : List StrChar} {arg : ℕ → Byte}
    (harg : Spells arg (name.map Subtype.val)) {r : Option NodeFields} (left : ℕ) :
    ∀ {offset : BitVec 32}, left = inode.size - offset.toNat →
    finddirLoop E disk inode name offset.toNat = .ok r →
    EndsInside E.blockSize (finddirWalk (dirBuffer E disk inode stack)
      (BitVec.ofNat 32 inode.size) arg · offset) (r.map NodeFields.inode) := by
  induction left using Nat.strong_induction_on with
  | _ left ih =>
      intro offset hleft h
      have hbs := hE.sectors.2.1
      have hlt : offset < BitVec.ofNat 32 inode.size ↔ offset.toNat < inode.size := by
        rw [BitVec.lt_def, inode.toNat_size]
      rw [finddirLoop.eq_1, ext2ReadBlock_eq hE] at h
      by_cases hoff : offset.toNat < inode.size
      swap
      · rw [if_neg hoff] at h
        cases h
        exact (endsInside_past (mt hlt.mp hoff)).2 arg
      rw [if_pos hoff] at h
      dsimp only at h
      split at h
      · cases h
      rename_i hin
      rw [Nat.not_lt] at hin
      obtain ⟨hinode, hlen⟩ := dirBuffer_header disk inode stack hE hin
      have hnext : (nextOffset (dirBuffer E disk inode stack) offset).toNat = _ :=
        nextOffset_toNat hbs hin
      rw [finddirWalk_ends (hlt.mpr hoff), hinode, hlen]
      split at h
      · rename_i hzero
        cases h
        rw [if_pos hzero]
        exact ⟨rfl, hin⟩
      rename_i hzero
      rw [if_neg hzero]
      rw [← hlen, ← hnext] at h
      have hrest : finddirLoop E disk inode name
          (nextOffset (dirBuffer E disk inode stack) offset).toNat = .ok r → EndsInside E.blockSize
          (finddirWalk (dirBuffer E disk inode stack) (BitVec.ofNat 32 inode.size) arg ·
            (nextOffset (dirBuffer E disk inode stack) offset)) (r.map NodeFields.inode) :=
        ih _ (by omega) rfl
      split at h
      · rename_i hdead
        rw [if_neg (not_not_intro hdead)]
        exact ⟨hin, hrest h⟩
      rename_i hlive
      split at h
      · cases h
      rename_i hname
      rw [Nat.not_lt] at hname
      have hblock : ∀ i < E.blockSize, dirBuffer E disk inode stack i =
          E.block disk (inode.block 0) i := fun _ hi => dirBuffer_block hE hi
      rw [if_pos hlive, compared, dirBuffer_nameLen disk inode stack hE hname]
      split at h
      · cases h
      · rename_i hmatch
        obtain ⟨hmiss, hseen⟩ := compareName_of_match hblock harg hmatch
        rw [hmiss]
        exact ⟨⟨hname, hseen⟩, hrest h⟩
      · rename_i hmatch
        obtain ⟨hhit, hseen⟩ := compareName_of_match hblock harg hmatch
        split at h
        · cases h
        · cases h
          rw [hhit]
          exact ⟨⟨hname, hseen⟩, rfl⟩

end Loops

/-! ### Examples -/

/-- From a record that is reached the next one is. -/
theorem RecordsInside.next {buf : ℕ → Byte} {blockSize size offset : ℕ} {names : List (List Byte)}
    (h : RecordsInside buf blockSize size names offset) (hsize : offset < size)
    (hlen : entryRecLen buf offset ≠ 0) : ∃ names',
      RecordsInside buf blockSize size names' (offset + entryRecLen buf offset) := by
  cases h with
  | past hpast => exact absurd hsize (Nat.not_lt.mpr hpast)
  | last _ hzero => exact absurd hzero hlen
  | deleted _ _ rest => exact ⟨_, rest⟩
  | live _ _ rest => exact ⟨_, rest⟩
  | cut _ _ _ _ _ rest => exact ⟨_, rest⟩

theorem RecordsInside.header {buf : ℕ → Byte} {blockSize size offset : ℕ}
    {names : List (List Byte)} (h : RecordsInside buf blockSize size names offset) :
    size ≤ offset ∨ offset + 6 ≤ blockSize := by
  cases h with
  | past hpast => exact .inl hpast
  | last hin _ => exact .inr hin
  | deleted hin _ _ => exact .inr hin
  | live _ hin _ => exact .inr (by omega)
  | cut _ hin _ _ _ _ => exact .inr (by omega)

/-- The walks over the directory of two files stay in its block. -/
theorem directory_walks_inside_two_files : WalksInside ⟨8, 5, 1024⟩ twoFiles
    (slice twoFiles 5248 inodeSize) fun _ => 0xFF := by
  refine (directory_walks_inside_iff (.inl rfl) twoFiles _ _).mpr ?_
  generalize hbuf : Ext2.block _ _ _ = buf
  have hfirst : entryRecLen buf 0 = 12 := by subst hbuf; decide +kernel
  have hsecond : entryRecLen buf 12 = 1012 := by subst hbuf; decide +kernel
  refine .live (by subst hbuf; decide +kernel) (by subst hbuf; decide +kernel) ?_
  rw [hfirst]
  refine .live (by subst hbuf; decide +kernel) (by subst hbuf; decide +kernel) ?_
  rw [hsecond]
  exact .past (by decide +kernel)

/-- In a directory of two blocks the walks look for the second behind the first. -/
theorem second_block_walk_leaves :
    ¬ ∀ (disk : Disk) (E : Ext2) (node : ℕ) (inode : Inode) (stack : ℕ → Byte),
      ext2Mount disk = .ok (some E) → E.Sized → ext2ReadInode E disk node = .ok inode →
      WalksInside E disk inode stack := by
  intro hall
  have hinside := (hall twoBlockDir _ 2 _ (fun _ => 0) twoBlockDir_mount (.inl rfl)
    twoBlockDir_directory.read).recordsInside (.inl rfl)
  obtain ⟨names, hnext⟩ := hinside.next (by decide +kernel) (by decide +kernel)
  have hat := hnext.header
  revert hat
  decide +kernel

end ZeptoOS.Fs
