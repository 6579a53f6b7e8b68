import ZeptoOS.Fs.TarRead
import ZeptoOS.Fs.TarWalk
import ZeptoOS.Lib.Run

/-!
# Fs — TarWrite

Writing to the files of an archive.  `tar_write` does not look at the size of the file.  The blocks
of the members lie apart, so a write that stays inside its file leaves the rest of the archive, and
a sequence of writes leaves the archive as it was parsed exactly if each of them does
(`tar_write_own_iff`).
-/

namespace ZeptoOS.Fs
open Lib

/-- `tar_write`: what it returns, and memory after. -/
def tarWrite (t : Target) (tar : Tar) (m : ByteMem) (node : TarNode) (offset size : BitVec 32)
    (buffer : ℕ → Byte) : BitVec 32 × ByteMem :=
  match tar.fileEntries[node.inode.toNat]? with
  | none => (0, m)
  | some f =>
      (size, m.setAll (fun i => t.ptr ((f.address + offset).toNat + i)) buffer
        (List.range size.toNat))

/-! ### Archives in memory -/

/-- The bytes that a member with the header `h` takes. -/
def span (mem : Bytes) (h : BitVec 32) : ℕ := 512 * (((headerSize mem h).toNat + 511) / 512 + 1)

/-- The members of the archive, and a block behind each, lie below 4 GiB. -/
def InMemory (mem : Bytes) (address : BitVec 32) : Prop :=
  ∀ h, Inspects mem address h → mem h.toNat ≠ 0 → h.toNat + span mem h + 512 ≤ 2 ^ 32

section Members

variable {mem : Bytes} {address h h' : BitVec 32}

theorem Inspects.trans (hh : Inspects mem address h) (hh' : Inspects mem h h') :
    Inspects mem address h' := by
  induction hh' with
  | first => exact hh
  | next _ hname ih => exact ih.next hname

/-- The first step of the walk. -/
theorem Inspects.head (hh : Inspects mem address h) :
    h = address ∨ Inspects mem (nextHeader mem address) h := by
  induction hh with
  | first => exact .inl rfl
  | next _ hname ih =>
      rcases ih with rfl | ih
      · exact .inr .first
      · exact .inr (ih.next hname)

/-- Of two headers the walk looks at, it comes to one from the other. -/
theorem Inspects.linear (hh : Inspects mem address h) (hh' : Inspects mem address h') :
    Inspects mem h h' ∨ Inspects mem h' h := by
  induction hh with
  | first => exact .inl hh'
  | next _ hname ih =>
      rcases ih with ih | ih
      · rcases ih.head with rfl | hnext
        · exact .inr (.next .first hname)
        · exact .inl hnext
      · exact .inr (ih.next hname)

theorem InMemory.next (hmem : InMemory mem address) (hh : Inspects mem address h)
    (hname : mem h.toNat ≠ 0) : (nextHeader mem h).toNat = h.toNat + span mem h := by
  have hle := hmem h hh hname
  rw [span] at hle ⊢
  rw [nextHeader, BitVec.toNat_add, toNat_step]
  omega

/-- A later header lies behind the member. -/
theorem InMemory.behind (hmem : InMemory mem address) (hh : Inspects mem address h)
    (hh' : Inspects mem h h') : h' = h ∨ mem h.toNat ≠ 0 ∧ h.toNat + span mem h ≤ h'.toNat := by
  induction hh' with
  | first => exact .inl rfl
  | next hx hname ih =>
      have hnext := hmem.next (hh.trans hx) hname
      rcases ih with rfl | ⟨hne, hle⟩
      · exact .inr ⟨hname, hnext.ge⟩
      · exact .inr ⟨hne, by omega⟩

/-- **Members lie apart.** -/
theorem InMemory.apart (hmem : InMemory mem address) (hh : Inspects mem address h)
    (hh' : Inspects mem address h') : h = h' ∨
      (mem h.toNat ≠ 0 ∧ h.toNat + span mem h ≤ h'.toNat) ∨
      (mem h'.toNat ≠ 0 ∧ h'.toNat + span mem h' ≤ h.toNat) := by
  rcases hh.linear hh' with hlater | hlater
  · rcases hmem.behind hh hlater with rfl | hle
    exacts [.inl rfl, .inr (.inl hle)]
  · rcases hmem.behind hh' hlater with rfl | hle
    exacts [.inl rfl, .inr (.inr hle)]

theorem Inspects.eq_of_end (hend : mem address.toNat = 0) (hh : Inspects mem address h) :
    h = address := by
  induction hh with
  | first => rfl
  | next _ hname ih => exact absurd (ih ▸ hend) hname

/-- An archive that ends below 4 GiB. -/
theorem inMemory_archive {ms : List Member} {a : ℕ} (hholds : Holds mem a (archive ms))
    (hend : a + (archive ms).length ≤ 2 ^ 32) : InMemory mem (BitVec.ofNat 32 a) := by
  have hblock := length_archive ms
  have hat : (BitVec.ofNat 32 a).toNat = a := Nat.mod_eq_of_lt (by omega)
  induction ms generalizing a with
  | nil =>
      intro h hh hname
      rw [hh.eq_of_end (hat.symm ▸ archive_nil_holds hholds), hat] at hname
      exact absurd (archive_nil_holds hholds) hname
  | cons m ms ih =>
      obtain ⟨hm, hms⟩ := archive_cons_holds hholds
      have hblock' := length_archive ms
      rw [archive, List.length_append] at hend
      have hnext := nextHeader_member hm (by omega)
      intro h hh hname
      rcases hh.head with rfl | hlater
      · have hlen := m.length_bytes
        have hsize : (BitVec.ofNat 32 m.content.length).toNat = m.content.length :=
          Nat.mod_eq_of_lt (by omega)
        rw [span, headerSize_member hm (by omega), hsize, hat, ← hlen]
        omega
      · rw [hnext] at hlater
        exact ih hms (by omega) hblock' (Nat.mod_eq_of_lt (by omega)) h hlater hname

end Members

/-! ### Parsing again -/

section Again

variable {mem mem' : Bytes} {address h : BitVec 32}

theorem parseOctalLoop_congr :
    ∀ {n p : ℕ} {acc : BitVec 32}, (∀ k < n, mem' (p + k) = mem (p + k)) →
      parseOctalLoop mem' n p acc = parseOctalLoop mem n p acc
  | 0, _, _, _ => rfl
  | n + 1, p, acc, hp => by
      have hrest : ∀ acc, parseOctalLoop mem' n (p + 1) acc = parseOctalLoop mem n (p + 1) acc :=
        fun acc => parseOctalLoop_congr fun k hk => by
          rw [Nat.add_assoc, Nat.add_comm 1]
          exact hp (k + 1) (Nat.succ_lt_succ hk)
      have hfirst : mem' p = mem p := hp 0 (Nat.succ_pos n)
      rw [parseOctalLoop, parseOctalLoop, hfirst, hrest]

theorem copyName_congr : ∀ {n p : ℕ}, (∀ k < n, mem' (p + k) = mem (p + k)) →
    copyName mem' n p = copyName mem n p
  | 0, _, _ => rfl
  | n + 1, p, hp => by
      have hrest : copyName mem' n (p + 1) = copyName mem n (p + 1) :=
        copyName_congr fun k hk => by
          rw [Nat.add_assoc, Nat.add_comm 1]
          exact hp (k + 1) (Nat.succ_lt_succ hk)
      have hfirst : mem' p = mem p := hp 0 (Nat.succ_pos n)
      rw [copyName, copyName, hfirst, hrest]

/-- A header is read as it was, where its block is. -/
theorem tarHeader_congr (hblock : ∀ k < 512, mem' (h.toNat + k) = mem (h.toNat + k)) :
    headerSize mem' h = headerSize mem h ∧ recordEntry mem' h = recordEntry mem h := by
  have hsize : headerSize mem' h = headerSize mem h := parseOctalLoop_congr fun k hk => by
    rw [Nat.add_assoc]
    exact hblock _ (by omega)
  refine ⟨hsize, ?_⟩
  rw [recordEntry, recordEntry, hsize, hblock 156 (by decide),
    copyName_congr fun k hk => hblock k (by omega)]

variable (hblocks : ∀ h, Inspects mem address h → ∀ k < 512, mem' (h.toNat + k) = mem (h.toNat + k))
include hblocks

theorem nextHeader_congr (hh : Inspects mem address h) :
    mem' h.toNat = mem h.toNat ∧ nextHeader mem' h = nextHeader mem h := by
  refine ⟨hblocks h hh 0 (by decide), ?_⟩
  rw [nextHeader, nextHeader, (tarHeader_congr (hblocks h hh)).1]

/-- The walk goes as it did. -/
theorem inspects_congr : Inspects mem' address h ↔ Inspects mem address h := by
  constructor
  · intro hh
    induction hh with
    | first => exact .first
    | next _ hname ih =>
        obtain ⟨hfirst, hnext⟩ := nextHeader_congr hblocks ih
        rw [hnext]
        exact ih.next (hfirst ▸ hname)
  · intro hh
    induction hh with
    | first => exact .first
    | next hx hname ih =>
        obtain ⟨hfirst, hnext⟩ := nextHeader_congr hblocks hx
        rw [← hnext]
        exact ih.next (hfirst ▸ hname)

theorem parseLoop_congr {fuel : ℕ} : ∀ {fs : List FileEntry} {h : BitVec 32},
    Inspects mem address h → parseLoop mem' fuel fs h = parseLoop mem fuel fs h := by
  induction fuel with
  | zero => exact fun _ => rfl
  | succ fuel ih =>
      intro fs h hh
      obtain ⟨hfirst, hnext⟩ := nextHeader_congr hblocks hh
      rw [parseLoop, parseLoop, hfirst, hnext, (tarHeader_congr (hblocks h hh)).2]
      split
      · rfl
      · rename_i hname
        exact ih (hh.next hname)

/-- **An archive is parsed as it was**, where its headers are. -/
theorem tarParse_congr (fuel : ℕ) : tarParse mem' fuel address = tarParse mem fuel address := by
  rw [tarParse, tarParse, parseLoop_congr hblocks .first]

theorem InMemory.congr (hmem : InMemory mem address) : InMemory mem' address := by
  intro h hh hname
  rw [inspects_congr hblocks] at hh
  rw [(nextHeader_congr hblocks hh).1] at hname
  rw [span, (tarHeader_congr (hblocks h hh)).1]
  exact hmem h hh hname

end Again

/-! ### Calls -/

/-- The arguments of `tar_write`. -/
structure WriteCall where
  node : TarNode
  offset : BitVec 32
  size : BitVec 32
  buffer : ℕ → Byte

/-- What a call returns, and memory after it. -/
def WriteCall.run (t : Target) (tar : Tar) (m : ByteMem) (c : WriteCall) : BitVec 32 × ByteMem :=
  tarWrite t tar m c.node c.offset c.size c.buffer

/-- A call on the node of a file. -/
def writeStep (t : Target) (tar : Tar) (m : ByteMem) (c : WriteCall) (m' : ByteMem) : Prop :=
  (∃ i, tar.tarNodes[i + 1]? = some c.node) ∧ m' = (c.run t tar m).2

instance (t : Target) (f : FileEntry) (a : ℕ) : Decidable (f.Content t a) :=
  inferInstanceAs (Decidable (∃ j < _, _))

/-- The call writes to the file `f` of the archive at `address` as it should. -/
structure WritesFile (t : Target) (tar : Tar) (address : BitVec 32) (f : FileEntry) (m : ByteMem)
    (c : WriteCall) (m' : ByteMem) : Prop where
  own : ∀ a, m'.cell a ≠ m.cell a → f.Content t a
  count : ∃ stores, m'.written = stores ++ m.written ∧
    (c.run t tar m).1.toNat = stores.countP (f.Content t ·)
  readBack : ∀ buffer,
    (tarRead tar (view t m'.cell) c.node c.offset c.size buffer).1 = (c.run t tar m).1 ∧
      ∀ k < c.size.toNat,
        (tarRead tar (view t m'.cell) c.node c.offset c.size buffer).2 k = c.buffer k
  headers : ∀ h, Inspects m.cell address h → ∀ k < 512, m'.cell (h.toNat + k) = m.cell (h.toNat + k)
  others : ∀ h, Inspects m.cell address h → m.cell h.toNat ≠ 0 → h + 512 ≠ f.address →
    ∀ a, (recordEntry m.cell h).Content t a → m'.cell a = m.cell a
  again : ∀ fuel, tarParse m'.cell fuel address = tarParse m.cell fuel address

/-- The call writes to its file as it should. -/
def WritesOwn (t : Target) (tar : Tar) (address : BitVec 32) (m : ByteMem) (c : WriteCall)
    (m' : ByteMem) : Prop :=
  ∃ f, tar.fileEntries[c.node.inode.toNat]? = some f ∧ WritesFile t tar address f m c m'

/-- The range of the call is empty or ends in the file. -/
def WriteCall.Inside (c : WriteCall) : Prop :=
  c.size = 0 ∨ c.offset.toNat + c.size.toNat ≤ c.node.length.toNat

section Calls

variable {t : Target} {tar : Tar} {address : BitVec 32} {f : FileEntry} {m m' : ByteMem}
  {offset size : BitVec 32} {a : ℕ}

/-- The entry of a header. -/
theorem InMemory.entry {mem : Bytes} {h : BitVec 32} (hmem : InMemory mem address)
    (hh : Inspects mem address h) (hname : mem h.toNat ≠ 0) :
    (recordEntry mem h).address.toNat = h.toNat + 512 ∧
      h.toNat + 512 + (recordEntry mem h).size.toNat ≤ h.toNat + span mem h ∧
      h.toNat + span mem h + 512 ≤ 2 ^ 32 := by
  have hle := hmem h hh hname
  have haddress : (recordEntry mem h).address.toNat = (h.toNat + 512) % 2 ^ 32 :=
    BitVec.toNat_add ..
  have hsize : (recordEntry mem h).size = headerSize mem h := rfl
  rw [haddress, hsize]
  rw [span] at hle ⊢
  omega

section Content

variable (hf : f.address.toNat + f.size.toNat < 2 ^ 32)
include hf

theorem content_iff :
    f.Content t a ↔ f.address.toNat ≤ a ∧ a < f.address.toNat + f.size.toNat := by
  have hptr : ∀ j < f.size.toNat, t.ptr (f.address.toNat + j) = f.address.toNat + j :=
    fun j hj => t.ptr_of_lt (by omega)
  constructor
  · rintro ⟨j, hj, rfl⟩
    rw [hptr j hj]
    omega
  · rintro ⟨hlo, hhi⟩
    exact ⟨a - f.address.toNat, by omega, by rw [hptr _ (by omega)]; omega⟩

/-- The slots of a call that ends in the file. -/
theorem slot_eq (hin : offset.toNat + size.toNat ≤ f.size.toNat) {k : ℕ} (hk : k < size.toNat) :
    t.ptr ((f.address + offset).toNat + k) = f.address.toNat + offset.toNat + k := by
  have hsum : (f.address + offset).toNat = f.address.toNat + offset.toNat := by
    rw [BitVec.toNat_add, Nat.mod_eq_of_lt (by omega)]
  rw [hsum]
  exact t.ptr_of_lt (by omega)

/-- **The slots of a call lie in the file** exactly if its range is empty or ends there. -/
theorem slots_content_iff :
    (∀ k < size.toNat, f.Content t (t.ptr ((f.address + offset).toNat + k))) ↔
      size = 0 ∨ offset.toNat + size.toNat ≤ f.size.toNat := by
  simp only [content_iff hf]
  constructor
  · intro h
    by_contra hne
    rw [not_or, Nat.not_le] at hne
    obtain ⟨hzero, hpast⟩ := hne
    have hpos : 0 < size.toNat := Nat.pos_of_ne_zero fun h₀ => hzero (BitVec.eq_of_toNat_eq h₀)
    have hoffset := offset.isLt
    have hsum : (f.address + offset).toNat = (f.address.toNat + offset.toNat) % 2 ^ 32 :=
      BitVec.toNat_add ..
    -- the first slot is in the file, so the sum has not wrapped round
    have hfirst := h 0 hpos
    rw [Nat.add_zero, t.ptr_of_lt (BitVec.isLt _), hsum] at hfirst
    have hlast := h (f.size.toNat - offset.toNat) (by omega)
    rw [hsum, t.ptr_of_lt (by omega)] at hlast
    omega
  · rintro (rfl | hin) k hk
    · exact absurd hk (Nat.not_lt_zero k)
    · rw [slot_eq hf hin hk]
      omega

end Content

/-- What a call stores to. -/
theorem run_stored {c : WriteCall} (hf : tar.fileEntries[c.node.inode.toNat]? = some f) :
    (c.run t tar m).1 = c.size ∧ (c.run t tar m).2 =
      m.setAll (fun i => t.ptr ((f.address + c.offset).toNat + i)) c.buffer
        (List.range c.size.toNat) := by
  rw [WriteCall.run, tarWrite, hf]
  exact ⟨rfl, rfl⟩

/-- A call whose slots lie in the file changes nothing else. -/
theorem run_outside {c : WriteCall} (hf : tar.fileEntries[c.node.inode.toNat]? = some f)
    (hslots : ∀ k < c.size.toNat, f.Content t (t.ptr ((f.address + c.offset).toNat + k)))
    (ha : ¬ f.Content t a) : (c.run t tar m).2.cell a = m.cell a := by
  rw [(run_stored hf).2]
  refine Store.setAll_cell_other fun k hk e => ha ?_
  rw [e]
  exact hslots k (List.mem_range.mp hk)

/-- What was written is read back. -/
theorem run_readBack {c : WriteCall} (hf : tar.fileEntries[c.node.inode.toNat]? = some f)
    (hend : f.address.toNat + f.size.toNat < 2 ^ 32)
    (hin : c.size = 0 ∨ c.offset.toNat + c.size.toNat ≤ f.size.toNat) (buffer : ℕ → Byte) :
    let mem := view t (c.run t tar m).2.cell
    (tarRead tar mem c.node c.offset c.size buffer).1 = c.size ∧
      ∀ k < c.size.toNat, (tarRead tar mem c.node c.offset c.size buffer).2 k = c.buffer k := by
  have hexact : RangeExact t f c.offset c.size := by
    rcases hin with hzero | hin
    · exact .inr (.inl hzero)
    · refine .inr (.inr ⟨by omega, ?_⟩)
      rw [BitVec.toNat_add, Nat.mod_eq_of_lt (by omega)]
  have hbounded : ReadBounded t (c.run t tar m).2.cell tar c.node f c.offset c.size :=
    (readBounded_iff hf).mpr hexact
  obtain ⟨hresult, -, hcopies⟩ := hbounded
  have hread : (tarRead tar (view t (c.run t tar m).2.cell) c.node c.offset c.size buffer).1 =
      c.size := by
    have hsize : c.size.toNat = 0 ∨ c.offset.toNat + c.size.toNat ≤ f.size.toNat :=
      hin.imp_left (congrArg BitVec.toNat ·)
    refine BitVec.eq_of_toNat_eq ((hresult buffer).trans ?_)
    split
    · rename_i hpast
      rw [BitVec.le_def] at hpast
      omega
    · omega
  refine ⟨hread, ?_⟩
  intro k hk
  rw [hcopies, hread, if_pos hk]
  have hin' := hin.resolve_left fun h => absurd hk (by rw [h]; exact Nat.not_lt_zero k)
  rw [← slot_eq (t := t) hend hin' hk, Target.ptr_ptr, (run_stored hf).2]
  refine Store.setAll_cell_slot (fun j hj e => ?_) (List.mem_range.mpr hk)
  rw [slot_eq hend hin' hk, slot_eq hend hin' (List.mem_range.mp hj)] at e
  omega

/-- What a sequence of calls keeps: the archive is the one that was parsed, and lies in memory. -/
structure Parsed (tar : Tar) (fuel : ℕ) (address : BitVec 32) (m : ByteMem) : Prop where
  parse : tarParse m.cell fuel address = some tar
  inMemory : InMemory m.cell address

/-- **A write inside its file.** -/
theorem writesFile_of_inside {fuel : ℕ} {c : WriteCall} {h : BitVec 32}
    (hm : Parsed tar fuel address m) (hf : tar.fileEntries[c.node.inode.toNat]? = some f)
    (hh : Inspects m.cell address h) (hname : m.cell h.toNat ≠ 0)
    (hentry : f = recordEntry m.cell h)
    (hin : c.size = 0 ∨ c.offset.toNat + c.size.toNat ≤ f.size.toNat) :
    WritesFile t tar address f m c (c.run t tar m).2 := by
  subst hentry
  obtain ⟨haddress, hspan, hbelow⟩ := hm.inMemory.entry hh hname
  have hend : (recordEntry m.cell h).address.toNat + (recordEntry m.cell h).size.toNat <
      2 ^ 32 := by omega
  have hslots := (slots_content_iff (t := t) hend).mpr hin
  have hkept : ∀ a, ¬ (recordEntry m.cell h).Content t a → _ :=
    fun a ha => run_outside (m := m) hf hslots ha
  have hheaders : ∀ h', Inspects m.cell address h' → ∀ k < 512,
      (c.run t tar m).2.cell (h'.toNat + k) = m.cell (h'.toNat + k) := by
    intro h' hh' k hk
    apply hkept
    intro hcontent
    rw [content_iff hend] at hcontent
    -- a header is before the content of its own member, and apart from the others
    rcases hm.inMemory.apart hh hh' with rfl | ⟨-, hle⟩ | ⟨hne, hle⟩
    · omega
    · omega
    · have := (hm.inMemory.entry hh' hne).2.1
      omega
  refine ⟨?_, ?_, ?_, hheaders, ?_, tarParse_congr hheaders⟩
  · intro a hne
    by_contra ha
    exact hne (hkept a ha)
  · rw [(run_stored hf).2, (run_stored hf).1, Store.setAll_written]
    refine ⟨_, rfl, ?_⟩
    rw [List.countP_eq_length.mpr, List.length_reverse, List.length_map, List.length_range]
    intro a ha
    obtain ⟨k, hk, rfl⟩ := List.mem_map.mp (List.mem_reverse.mp ha)
    exact decide_eq_true (hslots k (List.mem_range.mp hk))
  · intro buffer
    rw [(run_stored hf).1]
    exact run_readBack hf hend hin buffer
  · intro h' hh' hne hother a ha
    obtain ⟨haddress', hspan', hbelow'⟩ := hm.inMemory.entry hh' hne
    rw [content_iff (by omega)] at ha
    apply hkept
    intro hcontent
    rw [content_iff hend] at hcontent
    rcases hm.inMemory.apart hh hh' with rfl | ⟨-, hle⟩ | ⟨-, hle⟩
    · exact hother rfl
    · omega
    · omega

/-- **One call.**  It writes to its file as it should exactly if it stays inside, and then the
archive is the one that was parsed. -/
theorem writeStep_iff {fuel : ℕ} {c : WriteCall} (hm : Parsed tar fuel address m)
    (hstep : writeStep t tar m c m') :
    (WritesOwn t tar address m c m' ↔ c.Inside) ∧ (c.Inside → Parsed tar fuel address m') := by
  obtain ⟨⟨i, hnode⟩, rfl⟩ := hstep
  obtain ⟨f, hfi, hfile, hinode⟩ := tarParse_node hm.parse hnode
  have hf : tar.fileEntries[c.node.inode.toNat]? = some f := by rw [hinode, hfi]
  have hlength : c.node.length = f.size := by rw [hfile]; rfl
  obtain ⟨fs, hloop, htar⟩ := Option.map_eq_some_iff.mp hm.parse
  have hmem : f ∈ fs := by
    rw [← htar] at hfi
    exact List.mem_of_getElem? hfi
  have hheaders := parseLoop_forall
    (P := fun f => ∃ h, Inspects m.cell address h ∧ m.cell h.toNat ≠ 0 ∧ f = recordEntry m.cell h)
    (fun h hh hname => ⟨h, hh, hname, rfl⟩) hloop .first
    fun _ hnil => absurd hnil List.not_mem_nil
  obtain ⟨h, hh, hname, hentry⟩ := hheaders f hmem
  have hwrites : c.Inside → WritesFile t tar address f m c (c.run t tar m).2 := fun hin => by
    rw [WriteCall.Inside, hlength] at hin
    exact writesFile_of_inside hm hf hh hname hentry hin
  refine ⟨⟨?_, fun hin => ⟨f, hf, hwrites hin⟩⟩, ?_⟩
  · rintro ⟨f', hf', hw⟩
    obtain rfl : f = f' := Option.some.inj (hf.symm.trans hf')
    obtain ⟨haddress, hspan, hbelow⟩ := hm.inMemory.entry hh hname
    rw [← hentry] at haddress hspan
    -- as many stores as the size says lie in the file, so all of them do
    obtain ⟨stores, hstores, hcount⟩ := hw.count
    rw [(run_stored hf).2, Store.setAll_written] at hstores
    obtain rfl := List.append_cancel_right hstores
    rw [(run_stored hf).1] at hcount
    have hall := List.countP_eq_length.mp (hcount.symm.trans (by simp))
    rw [WriteCall.Inside, hlength, ← slots_content_iff (t := t) (by omega)]
    intro k hk
    exact of_decide_eq_true
      (hall _ (List.mem_reverse.mpr (List.mem_map.mpr ⟨k, List.mem_range.mpr hk, rfl⟩)))
  · intro hin
    have hw := hwrites hin
    exact ⟨(hw.again fuel).trans hm.parse, hm.inMemory.congr hw.headers⟩

/-- **`tar_write` stays inside its file**, in every sequence of calls on the files of an archive,
exactly if each call does. -/
theorem tar_write_own_iff {mem : Bytes} {fuel : ℕ}
    (hparse : tarParse mem fuel address = some tar) (hmem : InMemory mem address)
    (calls : List WriteCall) :
    Along (writeStep t tar) (WritesOwn t tar address) ⟨mem, []⟩ calls ↔
      Along (writeStep t tar) (fun _ c _ => c.Inside) ⟨mem, []⟩ calls :=
  Along.iff_of_inv (I := Parsed tar fuel address) writeStep_iff ⟨hparse, hmem⟩

end Calls

/-- The archive of two files that contain `hi`. -/
theorem parsed_twoMembers {mem : Bytes} (h : Holds mem 0x100000 (archive [hiFile, hiFile])) :
    Parsed twoMembersTar 3 0x100000 ⟨mem, []⟩ :=
  ⟨tarParse_twoMembers h,
    inMemory_archive (a := 0x100000) h (by rw [length_twoMembers]; decide)⟩

theorem inMemory_twoMembers : InMemory twoMembers 0x100000 :=
  inMemory_archive (a := 0x100000) holds_twoMembers (by rw [length_twoMembers]; decide)

/-- The first `n` bytes of the buffer written to the first file, from `offset` on. -/
def writeHi (offset n : BitVec 32) (buffer : ℕ → Byte) : WriteCall :=
  ⟨fileNode 0 (hiFile.entry 0x100000), offset, n, buffer⟩

/-- `ho` written over `hi`, and then `a` over its first byte. -/
theorem tar_write_own_ho : Along (writeStep .x86_64 twoMembersTar)
    (WritesOwn .x86_64 twoMembersTar 0x100000) ⟨twoMembers, []⟩
    [writeHi 0 2 ([0x68, 0x6F].getD · 0), writeHi 0 1 fun _ => 0x61] :=
  (tar_write_own_iff (tarParse_twoMembers holds_twoMembers) inMemory_twoMembers _).mpr
    fun _ _ => ⟨.inr (by decide +kernel), fun _ _ => ⟨.inr (by decide +kernel), trivial⟩⟩

/-- A zero written behind the padding of the first file, where the second header is. -/
theorem write_past_end_not_own : tarParse twoMembers 3 0x100000 = some twoMembersTar ∧
    InMemory twoMembers 0x100000 ∧
    ¬ Along (writeStep .x86_64 twoMembersTar) (WritesOwn .x86_64 twoMembersTar 0x100000)
      ⟨twoMembers, []⟩ [writeHi 512 1 fun _ => 0] := by
  refine ⟨tarParse_twoMembers holds_twoMembers, inMemory_twoMembers, ?_⟩
  intro h
  have hstep : writeStep .x86_64 twoMembersTar ⟨twoMembers, []⟩ (writeHi 512 1 fun _ => 0) _ :=
    ⟨⟨0, rfl⟩, rfl⟩
  have hinside := (writeStep_iff (parsed_twoMembers holds_twoMembers) hstep).1.mp (h _ hstep).1
  exact absurd hinside (by rw [WriteCall.Inside]; decide +kernel)

end ZeptoOS.Fs
