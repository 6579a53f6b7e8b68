import Mathlib.Order.Bounds.Basic
import ZeptoOS.Fs.Vfs
import ZeptoOS.Lib.Bytes
import ZeptoOS.Lib.Fuel
import ZeptoOS.Lib.Run
import ZeptoOS.Mm.PmmInit

/-!
# Syscall — Getdents

`sys_getdents` of `kernel/i386/syscall.c` and `kernel/x64/syscall.c`, and the loop of the shell's
`ls` in `user/init.c`.  The two kernels differ in the layout of `struct linux_dirent` and in what a
record is rounded up to; the shell declares the structure again, with `long` members.

A call writes the records of the leading entries whose sizes fit the buffer, one after the other,
and the shell reads the entries back from them (`getdents_round_trip`).  The descriptor is not
looked at, so every call starts again at the first entry (`getdents_restarts`).
-/

namespace ZeptoOS.Target

/-- The size of `d_ino`, of `d_off` and of a `long`. -/
def direntWord : Target → ℕ
  | i386 => 4
  | x86_64 => 8

/-- The offset of `d_reclen`. -/
def direntReclen : Target → ℕ
  | i386 => 8
  | x86_64 => 16

/-- The offset of `d_name`. -/
def direntName : Target → ℕ
  | i386 => 10
  | x86_64 => 18

/-- `sizeof(struct linux_dirent)` -/
def direntSize : Target → ℕ
  | i386 => 12
  | x86_64 => 24

/-- The bits that rounding clears in a record length. -/
def direntMask : Target → BitVec 32
  | i386 => 3
  | x86_64 => 7

/-- What `sys_getdents` returns for `pos`, as an `int` or as an `int64_t`. -/
def getdentsRet : Target → BitVec 32 → ℤ
  | i386, pos => pos.toInt
  | x86_64, pos => pos.toNat

end ZeptoOS.Target

namespace ZeptoOS.Syscall
open Lib Fs

/-- `struct dirent`; the name is terminated within its array. -/
structure DirEntry where
  name : List StrChar
  ino : BitVec 32
  name_lt : name.length < 128

/-- The drivers, with their `readdir` functions. -/
structure DirDriver (N σ : Type*) extends Driver N σ where
  readdir : σ → N → Option (BitVec 32 → σ → Option DirEntry × σ)

variable {N σ : Type*}

/-- `vfs_readdir` -/
def vfsReaddir (D : DirDriver N σ) (node : Option N) (index : BitVec 32) (s : σ) :
    Option DirEntry × σ :=
  match node with
  | none => (none, s)
  | some n =>
      if D.flags s n &&& 2 = 0 then (none, s)
      else
        match D.readdir s n with
        | none => (none, s)
        | some readdir => readdir index s

/-- `reclen` of a name of `nameLen` characters. -/
def reclen (t : Target) (nameLen : ℕ) : BitVec 16 :=
  let reclen := BitVec.ofNat 16 (t.direntSize + nameLen + 1)
  ((reclen.setWidth 32 + t.direntMask) &&& ~~~t.direntMask).setWidth 16

/-- The stores into `entry`. -/
def storeRecord (t : Target) (entry : ℕ) (de : DirEntry) (dOff : BitVec 32) (dReclen : BitVec 16)
    (mem : Bytes) : Bytes :=
  let mem := put mem entry (encodeLe t.direntWord de.ino.toNat)
  let mem := put mem (entry + t.direntWord) (encodeLe t.direntWord dOff.toNat)
  let mem := put mem (entry + t.direntReclen) (encodeLe 2 dReclen.toNat)
  put mem (entry + t.direntName) (de.name.map (·.1) ++ [0])

/-- The loop of `sys_getdents`, with `fuel` turns: `pos`, and memory and the drivers after. -/
def getdentsLoop (t : Target) (D : DirDriver N σ) (node : N) (dirp : ℕ) (count : BitVec 32) :
    ℕ → BitVec 32 → BitVec 32 → Bytes → σ → Option (BitVec 32 × Bytes × σ)
  | 0, _, _, _, _ => none
  | fuel + 1, pos, index, mem, s =>
      match vfsReaddir D (some node) index s with
      | (none, s) => some (pos, mem, s)
      | (some de, s) =>
          let reclen := reclen t de.name.length
          let next := pos + reclen.setWidth 32
          if count < next then some (pos, mem, s)
          else
            getdentsLoop t D node dirp count fuel next (index + 1)
              (storeRecord t (dirp + pos.toNat) de next reclen mem) s

/-- `sys_getdents` -/
def sysGetdents (t : Target) (D : DirDriver N σ) (fuel : ℕ) (v : Vfs N) (_fd : BitVec 32)
    (dirp : ℕ) (count : BitVec 32) (mem : Bytes) (s : σ) : Option (ℤ × Bytes × σ) :=
  match v.rootNode with
  | none => some (-1, mem, s)
  | some node =>
      (getdentsLoop t D node dirp count fuel 0 0 mem s).map fun (pos, mem, s) =>
        (t.getdentsRet pos, mem, s)

/-- The string at `a`, if it ends within `fuel` bytes. -/
def cString (mem : Bytes) : ℕ → ℕ → Option (List StrChar)
  | 0, _ => none
  | fuel + 1, a =>
      if h : mem a = 0 then some [] else (cString mem fuel (a + 1)).map (⟨mem a, h⟩ :: ·)

/-- A record as the shell finds it. -/
structure Visit where
  ino : ℕ
  name : List StrChar
deriving DecidableEq

/-- The loop of `ls` over `nread` bytes at `dbuf`, with `fuel` turns: the records it visits, and
`bpos` at the end. -/
def lsLoop (t : Target) (mem : Bytes) (dbuf : ℕ) (nread : ℤ) : ℕ → ℕ → Option (List Visit × ℕ)
  | 0, _ => none
  | fuel + 1, bpos =>
      if bpos < nread then
        let d := dbuf + bpos
        match cString mem fuel (d + t.direntName) with
        | none => none
        | some name =>
            (lsLoop t mem dbuf nread fuel (bpos + leAt mem (d + t.direntReclen) 2)).map
              fun (visits, bpos) => (⟨leAt mem d t.direntWord, name⟩ :: visits, bpos)
      else some ([], bpos)

/-! ### Records -/

/-- The size of an entry's record: header, name and terminator, rounded up. -/
def recordSize (t : Target) (e : DirEntry) : ℕ :=
  (t.direntSize + e.name.length + 1 + (t.direntWord - 1)) / t.direntWord * t.direntWord

/-- The size of the records of `es`. -/
def total (t : Target) (es : List DirEntry) : ℕ := (es.map (recordSize t)).sum

/-- The record of `e` lies at `p`. -/
structure RecordAt (t : Target) (mem : Bytes) (p : ℕ) (e : DirEntry) : Prop where
  ino : leAt mem p t.direntWord = e.ino.toNat
  reclen : leAt mem (p + t.direntReclen) 2 = recordSize t e
  name : Holds mem (p + t.direntName) (e.name.map (·.1) ++ [0])

/-- The records of the entries lie one after the other from `p`. -/
def Laid (t : Target) (mem : Bytes) : ℕ → List DirEntry → Prop
  | _, [] => True
  | p, e :: es => RecordAt t mem p e ∧ Laid t mem (p + recordSize t e) es

@[simp] theorem total_nil (t : Target) : total t [] = 0 := rfl

@[simp] theorem total_cons (t : Target) (e : DirEntry) (es : List DirEntry) :
    total t (e :: es) = recordSize t e + total t es := by
  rw [total, List.map_cons, List.sum_cons, total]

@[simp] theorem total_append (t : Target) (es es' : List DirEntry) :
    total t (es ++ es') = total t es + total t es' := by
  rw [total, List.map_append, List.sum_append, total, total]

/-- The sixteen-bit rounding is the rounding up. -/
theorem toNat_reclen (t : Target) : ∀ n < 128, (reclen t n).toNat =
    (t.direntSize + n + 1 + (t.direntWord - 1)) / t.direntWord * t.direntWord := by
  cases t <;> decide +kernel

/-- A record holds its name and the terminator, and is not long. -/
theorem recordSize_bounds (t : Target) (e : DirEntry) :
    t.direntName + e.name.length + 1 ≤ recordSize t e ∧ recordSize t e ≤ 152 := by
  have hname := e.name_lt
  cases t <;> simp only [recordSize, Target.direntSize, Target.direntWord, Target.direntName] <;>
    omega

/-- The members follow each other. -/
theorem dirent_layout (t : Target) :
    2 * t.direntWord = t.direntReclen ∧ t.direntReclen + 2 = t.direntName := by
  cases t <;> exact ⟨rfl, rfl⟩

theorem toNat_reclen_eq (t : Target) (e : DirEntry) :
    (reclen t e.name.length).toNat = recordSize t e :=
  toNat_reclen t _ e.name_lt

theorem storeRecord_outside {t : Target} {p a : ℕ} {e : DirEntry} (dOff : BitVec 32)
    (dReclen : BitVec 16) (mem : Bytes) (h : a < p ∨ p + recordSize t e ≤ a) :
    storeRecord t p e dOff dReclen mem a = mem a := by
  have hsize := (recordSize_bounds t e).1
  obtain ⟨hword, hname⟩ := dirent_layout t
  simp only [storeRecord]
  rw [put_outside, put_outside, put_outside, put_outside]
  all_goals
    simp only [length_encodeLe, List.length_append, List.length_map, List.length_singleton]
    omega

/-- What is stored for an entry is its record. -/
theorem storeRecord_at (t : Target) (p : ℕ) (e : DirEntry) (dOff : BitVec 32) (mem : Bytes) :
    RecordAt t (storeRecord t p e dOff (reclen t e.name.length) mem) p e := by
  obtain ⟨hword, hname⟩ := dirent_layout t
  have hmod : ∀ ino : BitVec 32, ino.toNat % 256 ^ t.direntWord = ino.toNat := by
    intro ino
    refine Nat.mod_eq_of_lt (ino.isLt.trans_le ?_)
    cases t <;> decide
  refine ⟨?_, ?_, holds_put _⟩
  · refine (leAt_of_holds ?_).trans (hmod e.ino)
    refine (((holds_put _).put ?_).put ?_).put ?_ <;> simp only [length_encodeLe] <;> omega
  · rw [← toNat_reclen_eq]
    refine (leAt_of_holds ?_).trans (Nat.mod_eq_of_lt (reclen t e.name.length).isLt)
    refine (holds_put _).put ?_
    simp only [length_encodeLe]
    omega

/-- A record lies where it did, if its bytes do. -/
theorem RecordAt.of_agree {t : Target} {mem mem' : Bytes} {p : ℕ} {e : DirEntry}
    (h : RecordAt t mem p e) (hagree : ∀ a, p ≤ a → a < p + recordSize t e → mem' a = mem a) :
    RecordAt t mem' p e := by
  have hsize := (recordSize_bounds t e).1
  obtain ⟨hword, hname⟩ := dirent_layout t
  refine ⟨?_, ?_, h.name.of_agree fun a h₁ h₂ => hagree a (by omega) ?_⟩
  · exact (leAt_congr fun a h₁ h₂ => hagree a h₁ (by omega)).trans h.ino
  · exact (leAt_congr fun a h₁ h₂ => hagree a (by omega) (by omega)).trans h.reclen
  · rw [List.length_append, List.length_map, List.length_singleton] at h₂
    omega

/-! ### The entries that fit -/

/-- The leading entries whose records fit into `room` bytes. -/
def leading (t : Target) : ℕ → List DirEntry → List DirEntry
  | _, [] => []
  | room, e :: es =>
      if recordSize t e ≤ room then e :: leading t (room - recordSize t e) es else []

theorem total_leading_le (t : Target) (room : ℕ) (es : List DirEntry) :
    total t (leading t room es) ≤ room := by
  fun_induction leading t room es with
  | case1 => exact Nat.zero_le _
  | case2 room e es hfits ih =>
      rw [total_cons]
      omega
  | case3 => exact Nat.zero_le _

theorem total_leading_le_total (t : Target) (room : ℕ) (es : List DirEntry) :
    total t (leading t room es) ≤ total t es := by
  fun_induction leading t room es with
  | case1 => exact Nat.le_refl _
  | case2 room e es hfits ih =>
      rw [total_cons, total_cons]
      omega
  | case3 => exact Nat.zero_le _

/-- They are as many of the first entries as fit. -/
theorem leading_greatest (t : Target) (room : ℕ) (es : List DirEntry) :
    leading t room es = es.take (leading t room es).length ∧
      IsGreatest {m | m ≤ es.length ∧ total t (es.take m) ≤ room} (leading t room es).length := by
  fun_induction leading t room es with
  | case1 => exact ⟨rfl, ⟨Nat.le_refl 0, Nat.zero_le _⟩, fun k hk => hk.1⟩
  | case2 room e es hfits ih =>
      obtain ⟨htake, ⟨hlen, htotal⟩, hmax⟩ := ih
      refine ⟨congrArg (e :: ·) htake, ⟨Nat.succ_le_succ hlen, ?_⟩, fun k hk => ?_⟩
      · rw [List.length_cons, List.take_succ_cons, total_cons]
        omega
      · cases k with
        | zero => exact Nat.zero_le _
        | succ k =>
            obtain ⟨hk, hroom⟩ := hk
            rw [List.take_succ_cons, total_cons] at hroom
            exact Nat.succ_le_succ (hmax ⟨Nat.le_of_succ_le_succ hk, by omega⟩)
  | case3 room e es hfits =>
      refine ⟨rfl, ⟨Nat.zero_le _, Nat.zero_le _⟩, fun k hk => ?_⟩
      cases k with
      | zero => exact Nat.le_refl 0
      | succ k =>
          have hroom := hk.2
          rw [List.take_succ_cons, total_cons] at hroom
          omega

/-! ### The loops -/

/-- While `I` holds of the drivers, `root` is a directory with the entries `es`. -/
def Yields (D : DirDriver N σ) (root : N) (es : List DirEntry) (I : σ → Prop) : Prop :=
  ∀ s, I s → D.flags s root &&& 2 ≠ 0 ∧ ∃ readdir, D.readdir s root = some readdir ∧
    ∀ index, (readdir index s).1 = es[index.toNat]? ∧ I (readdir index s).2

/-- The end of the first record that does not fit is still a 32-bit offset. -/
def EndsBelow (t : Target) (count : ℕ) (es : List DirEntry) : Prop :=
  ∀ done e rest, es = done ++ e :: rest → total t done ≤ count →
    total t done + recordSize t e < 2 ^ 32

/-- Either the buffer or the directory is of less than `2 ^ 31` bytes. -/
theorem endsBelow_of_lt {t : Target} {count : ℕ} {es : List DirEntry}
    (h : min count (total t es) < 2 ^ 31) : EndsBelow t count es := by
  rintro done e rest rfl hdone
  have hsize := (recordSize_bounds t e).2
  rw [total_append, total_cons] at h
  omega

theorem total_leading_lt {t : Target} {count : ℕ} {es : List DirEntry}
    (h : min count (total t es) < 2 ^ 31) : total t (leading t count es) < 2 ^ 31 := by
  have hcount := total_leading_le t count es
  have htotal := total_leading_le_total t count es
  omega

/-- Below `2 ^ 31` the casts to `int` keep `pos`. -/
theorem getdentsRet_of_lt (t : Target) {n : ℕ} (h : n < 2 ^ 31) :
    t.getdentsRet (BitVec.ofNat 32 n) = n := by
  have hn : (BitVec.ofNat 32 n).toNat = n := Nat.mod_eq_of_lt (by omega)
  cases t with
  | i386 =>
      rw [Target.getdentsRet, BitVec.toInt_eq_toNat_of_lt (by omega), hn]
  | x86_64 => exact congrArg Nat.cast hn

theorem toInt_ofInt_of_lt {n : ℕ} (h : n < 2 ^ 31) : (BitVec.ofInt 32 n).toInt = n := by
  rw [BitVec.ofInt_natCast]
  exact getdentsRet_of_lt .i386 h

variable {D : DirDriver N σ} {root : N} {es : List DirEntry} {I : σ → Prop} {t : Target}

theorem vfsReaddir_yields (hes : Yields D root es I) (index : BitVec 32) {s : σ} (hs : I s) :
    ∃ s', vfsReaddir D (some root) index s = (es[index.toNat]?, s') ∧ I s' := by
  obtain ⟨hdir, readdir, hreaddir, hentries⟩ := hes s hs
  obtain ⟨hentry, hs'⟩ := hentries index
  refine ⟨(readdir index s).2, ?_, hs'⟩
  rw [vfsReaddir, if_neg hdir, hreaddir]
  exact Prod.ext hentry rfl

/-- Each of the records takes up some bytes. -/
theorem length_le_total (t : Target) (es : List DirEntry) : es.length ≤ total t es := by
  induction es with
  | nil => exact Nat.le_refl 0
  | cons e es ih =>
      have hsize := (recordSize_bounds t e).1
      rw [List.length_cons, total_cons]
      omega

/-- What `readdir` has at the index the loop comes to after the entries `done`. -/
theorem getElem?_after {done rest : List DirEntry} (h : total t done < 2 ^ 32) :
    (done ++ rest)[(BitVec.ofNat 32 done.length).toNat]? = rest[0]? := by
  have hlen := length_le_total t done
  rw [BitVec.toNat_ofNat, Nat.mod_eq_of_lt (by omega),
    List.getElem?_append_right (Nat.le_refl _), Nat.sub_self]

/-- `pos` after one more record. -/
theorem pos_add_reclen (t : Target) (done : List DirEntry) (e : DirEntry) :
    BitVec.ofNat 32 (total t done) + (reclen t e.name.length).setWidth 32 =
      BitVec.ofNat 32 (total t (done ++ [e])) := by
  refine BitVec.eq_of_toNat_eq ?_
  rw [BitVec.toNat_add, BitVec.toNat_setWidth, toNat_reclen_eq, total_append, total_cons, total_nil]
  simp only [BitVec.toNat_ofNat]
  omega

/-- From the entry after `done` on, the loop stores the records of the entries that still fit. -/
theorem getdentsLoop_spec (hes : Yields D root es I) (dirp : ℕ) {count : BitVec 32}
    (hends : EndsBelow t count.toNat es) {rest : List DirEntry} :
    ∀ {done : List DirEntry}, es = done ++ rest → total t done ≤ count.toNat →
    ∀ (mem : Bytes) {s : σ}, I s →
    ∃ mem' s', (∀ fuel > (leading t (count.toNat - total t done) rest).length,
        getdentsLoop t D root dirp count fuel (BitVec.ofNat 32 (total t done))
          (BitVec.ofNat 32 done.length) mem s =
            some (BitVec.ofNat 32
              (total t done + total t (leading t (count.toNat - total t done) rest)), mem', s')) ∧
      I s' ∧ Laid t mem' (dirp + total t done) (leading t (count.toNat - total t done) rest) ∧
      ∀ a, a < dirp + total t done ∨
        dirp + total t done + total t (leading t (count.toNat - total t done) rest) ≤ a →
        mem' a = mem a := by
  induction rest with
  | nil =>
      intro done hdone hfit mem s hs
      have hcount := count.isLt
      obtain ⟨s', hread, hs'⟩ := vfsReaddir_yields hes (BitVec.ofNat 32 done.length) hs
      rw [hdone, getElem?_after (t := t) (by omega)] at hread
      refine ⟨mem, s', fun fuel hfuel => ?_, hs', trivial, fun a _ => rfl⟩
      obtain ⟨fuel, rfl⟩ := Nat.exists_eq_succ_of_ne_zero (Nat.ne_zero_of_lt hfuel)
      rw [getdentsLoop, hread, leading]
      rfl
  | cons e rest ih =>
      intro done hdone hfit mem s hs
      have hcount := count.isLt
      have hend := hends done e rest hdone hfit
      obtain ⟨s', hread, hs'⟩ := vfsReaddir_yields hes (BitVec.ofNat 32 done.length) hs
      rw [hdone, getElem?_after (t := t) (by omega), List.getElem?_cons_zero] at hread
      have hdone' : total t (done ++ [e]) = total t done + recordSize t e := by
        rw [total_append, total_cons, total_nil, Nat.add_zero]
      have hpos : (BitVec.ofNat 32 (total t done)).toNat = total t done := by
        rw [BitVec.toNat_ofNat, Nat.mod_eq_of_lt (by omega)]
      have hnextNat : (BitVec.ofNat 32 (total t (done ++ [e]))).toNat =
          total t done + recordSize t e := by
        rw [BitVec.toNat_ofNat, hdone', Nat.mod_eq_of_lt hend]
      have hnext := pos_add_reclen t done e
      rw [leading]
      by_cases hroom : recordSize t e ≤ count.toNat - total t done
      · -- the record fits: the rest of the run starts after `done ++ [e]`
        have hdone₁ : es = (done ++ [e]) ++ rest := by rw [hdone, List.append_assoc]; rfl
        have hindex : BitVec.ofNat 32 done.length + 1 = BitVec.ofNat 32 (done ++ [e]).length := by
          rw [List.length_append, BitVec.ofNat_add]
          rfl
        have hrest := ih hdone₁ (by omega)
          (storeRecord t (dirp + total t done) e (BitVec.ofNat 32 (total t (done ++ [e])))
            (reclen t e.name.length) mem) hs'
        rw [hdone'] at hrest
        obtain ⟨mem', s'', hloop, hs'', hlaid, hout⟩ := hrest
        rw [if_pos hroom, Nat.sub_sub, total_cons]
        refine ⟨mem', s'', fun fuel hfuel => ?_, hs'', ⟨?_, ?_⟩, fun a ha => ?_⟩
        · obtain ⟨fuel, rfl⟩ := Nat.exists_eq_succ_of_ne_zero (Nat.ne_zero_of_lt hfuel)
          rw [getdentsLoop, hread]
          dsimp only
          rw [hnext, if_neg (by rw [BitVec.lt_def, hnextNat]; omega), hpos, hindex, hdone',
            hloop fuel (Nat.lt_of_succ_lt_succ hfuel), Nat.add_assoc]
        · -- the later records lie past this one
          exact (storeRecord_at t _ e _ mem).of_agree fun a h₁ h₂ => hout a (.inl (by omega))
        · rwa [Nat.add_assoc]
        · rw [hout a (by omega), storeRecord_outside]
          omega
      · rw [if_neg hroom]
        refine ⟨mem, s', fun fuel hfuel => ?_, hs', trivial, fun a _ => rfl⟩
        obtain ⟨fuel, rfl⟩ := Nat.exists_eq_succ_of_ne_zero (Nat.ne_zero_of_lt hfuel)
        rw [getdentsLoop, hread]
        dsimp only
        rw [hnext, if_pos (by rw [BitVec.lt_def, hnextNat]; omega)]
        rfl

/-- How far `sys_getdents` may store: within `count` bytes, unless `pos` can wrap. -/
def getdentsSpan (count : ℕ) : ℕ := if count + 152 < 2 ^ 32 then count else count + 152

/-- The loop stores nowhere else, whatever the directory. -/
theorem getdentsLoop_outside {dirp : ℕ} {count : BitVec 32} {a : ℕ}
    (ha : a < dirp ∨ dirp + getdentsSpan count.toNat ≤ a) {fuel : ℕ} {pos index : BitVec 32}
    {mem : Bytes} {s : σ} {r : BitVec 32 × Bytes × σ} (hpos : pos ≤ count)
    (h : getdentsLoop t D root dirp count fuel pos index mem s = some r) : r.2.1 a = mem a := by
  induction fuel generalizing pos index mem s with
  | zero => cases h
  | succ fuel ih =>
      rw [getdentsLoop] at h
      split at h
      · cases h
        rfl
      · rename_i de s' _
        dsimp only at h
        split at h
        · cases h
          rfl
        · rename_i hnext
          rw [BitVec.not_lt] at hnext
          -- `next ≤ count` bounds the record, unless the addition wrapped
          refine (ih hnext h).trans (storeRecord_outside _ _ mem ?_)
          have hsize := (recordSize_bounds t de).2
          rw [BitVec.le_def] at hpos hnext
          rw [BitVec.toNat_add, BitVec.toNat_setWidth, toNat_reclen_eq] at hnext
          unfold getdentsSpan at ha
          split at ha <;> omega

theorem sysGetdents_outside {v : Vfs N} {fuel : ℕ} {fd : BitVec 32} {dirp : ℕ} {count : BitVec 32}
    {a : ℕ} (ha : a < dirp ∨ dirp + getdentsSpan count.toNat ≤ a) {mem : Bytes} {s : σ}
    {r : ℤ × Bytes × σ} (h : sysGetdents t D fuel v fd dirp count mem s = some r) :
    r.2.1 a = mem a := by
  rw [sysGetdents.eq_def] at h
  split at h
  · cases h
    rfl
  · obtain ⟨r', hloop, rfl⟩ := Option.map_eq_some_iff.mp h
    exact getdentsLoop_outside ha (BitVec.le_def.mpr (Nat.zero_le _)) hloop

/-- `pos` is a multiple of 4 all along, as every record's length is. -/
theorem getdentsLoop_aligned {dirp : ℕ} {count : BitVec 32} {fuel : ℕ} {pos index : BitVec 32}
    {mem : Bytes} {s : σ} {r : BitVec 32 × Bytes × σ} (hpos : pos.toNat % 4 = 0)
    (h : getdentsLoop t D root dirp count fuel pos index mem s = some r) : r.1.toNat % 4 = 0 := by
  induction fuel generalizing pos index mem s with
  | zero => cases h
  | succ fuel ih =>
      rw [getdentsLoop] at h
      split at h
      · cases h
        exact hpos
      · rename_i de s' _
        dsimp only at h
        split at h
        · cases h
          exact hpos
        · refine ih ?_ h
          have hsize : recordSize t de % 4 = 0 := by
            cases t <;> simp only [recordSize, Target.direntWord] <;> omega
          rw [BitVec.toNat_add, BitVec.toNat_setWidth, toNat_reclen_eq]
          omega

/-- With a root, no call fails: -1 is not a multiple of 4. -/
theorem sysGetdents_ne {v : Vfs N} (hroot : v.rootNode = some root) {fuel : ℕ} {fd : BitVec 32}
    {dirp : ℕ} {count : BitVec 32} {mem : Bytes} {s : σ} {r : ℤ × Bytes × σ}
    (h : sysGetdents t D fuel v fd dirp count mem s = some r) : r.1 ≠ -1 := by
  rw [sysGetdents.eq_def, hroot] at h
  obtain ⟨⟨pos, r'⟩, hloop, rfl⟩ := Option.map_eq_some_iff.mp h
  have haligned : pos.toNat % 4 = 0 := getdentsLoop_aligned rfl hloop
  cases t with
  | i386 =>
      dsimp only [Target.getdentsRet]
      rw [BitVec.toInt_eq_toNat_cond]
      split <;> omega
  | x86_64 =>
      dsimp only [Target.getdentsRet]
      omega

theorem sysGetdents_spec (hes : Yields D root es I) {v : Vfs N} (hroot : v.rootNode = some root)
    {count : BitVec 32} (hless : min count.toNat (total t es) < 2 ^ 31) (fd : BitVec 32) (dirp : ℕ)
    (mem : Bytes) {s : σ} (hs : I s) :
    ∃ mem' s', Returns (fun fuel => sysGetdents t D fuel v fd dirp count mem s)
        (((total t (leading t count.toNat es) : ℕ) : ℤ), mem', s') ∧
      I s' ∧ Laid t mem' dirp (leading t count.toNat es) ∧
      ∀ a, a < dirp ∨ dirp + total t (leading t count.toNat es) ≤ a → mem' a = mem a := by
  have hspec := getdentsLoop_spec hes dirp (endsBelow_of_lt hless) (List.nil_append es).symm
    (Nat.zero_le _) mem hs
  rw [total_nil, Nat.sub_zero, Nat.zero_add, Nat.add_zero] at hspec
  obtain ⟨mem', s', hloop, hs', hlaid, hout⟩ := hspec
  refine ⟨mem', s', ⟨(leading t count.toNat es).length + 1, fun fuel hfuel => ?_⟩, hs', hlaid, hout⟩
  have hcall : getdentsLoop t D root dirp count fuel 0 0 mem s =
      some (BitVec.ofNat 32 (total t (leading t count.toNat es)), mem', s') := hloop fuel hfuel
  dsimp only
  rw [sysGetdents, hroot]
  dsimp only
  rw [hcall, Option.map_some, getdentsRet_of_lt t (total_leading_lt hless)]

/-- A record that lies in the buffer is visited. -/
def visit (e : DirEntry) : Visit := ⟨e.ino.toNat, e.name⟩

theorem cString_of_holds {mem : Bytes} {a : ℕ} {cs : List StrChar}
    (h : Holds mem a (cs.map (·.1) ++ [0])) {fuel : ℕ} (hfuel : cs.length < fuel) :
    cString mem fuel a = some cs := by
  induction cs generalizing a fuel with
  | nil =>
      obtain ⟨fuel, rfl⟩ := Nat.exists_eq_succ_of_ne_zero (Nat.ne_zero_of_lt hfuel)
      rw [cString, dif_pos (holds_cons.mp h).1]
  | cons c cs ih =>
      obtain ⟨fuel, rfl⟩ := Nat.exists_eq_succ_of_ne_zero (Nat.ne_zero_of_lt hfuel)
      obtain ⟨hc, hcs⟩ := holds_cons.mp h
      rw [cString, dif_neg (hc ▸ c.2), ih hcs (Nat.lt_of_succ_lt_succ hfuel)]
      exact congrArg (fun c => some (c :: cs)) (Subtype.ext hc)

/-- The shell visits the records that lie in the buffer, and stops at their end. -/
theorem lsLoop_spec {mem : Bytes} {dbuf nread : ℕ} {es : List DirEntry} {bpos : ℕ}
    (hlaid : Laid t mem (dbuf + bpos) es) (hend : nread = bpos + total t es) :
    Returns (fun fuel => lsLoop t mem dbuf nread fuel bpos) (es.map visit, nread) := by
  refine ⟨es.length + 128, ?_⟩
  induction es generalizing bpos with
  | nil =>
      intro fuel hfuel
      obtain ⟨fuel, rfl⟩ : ∃ n, fuel = n + 1 := Nat.exists_eq_add_one.mpr (by omega)
      rw [total_nil, Nat.add_zero] at hend
      dsimp only
      rw [lsLoop, if_neg (by omega), hend]
      rfl
  | cons e es ih =>
      intro fuel hfuel
      obtain ⟨fuel, rfl⟩ : ∃ n, fuel = n + 1 := Nat.exists_eq_add_one.mpr (by omega)
      obtain ⟨hrecord, hlaid⟩ := hlaid
      have hsize := (recordSize_bounds t e).1
      have hname := e.name_lt
      rw [total_cons] at hend
      rw [List.length_cons] at hfuel
      have hrest := ih (by rwa [← Nat.add_assoc]) (by omega) fuel (by omega)
      dsimp only at hrest ⊢
      rw [lsLoop, if_pos (by omega)]
      dsimp only
      rw [cString_of_holds hrecord.name (by omega), hrecord.ino, hrecord.reclen]
      dsimp only
      rw [hrest]
      rfl

/-- **The directory round trip.**  `sys_getdents` writes within the buffer, and the shell finds in
what it wrote the leading entries whose records fit, as many as do, and stops at the end. -/
theorem getdents_round_trip (hes : Yields D root es I) {v : Vfs N}
    (hroot : v.rootNode = some root) (fd : BitVec 32) (dirp : ℕ) {count : BitVec 32}
    (hcount : count.toNat < 2 ^ 31) (mem : Bytes) {s : σ} (hs : I s) :
    ∃ (m pos : ℕ) (mem' : Bytes) (s' : σ),
      IsGreatest {m | m ≤ es.length ∧ total t (es.take m) ≤ count.toNat} m ∧
      Returns (fun fuel => sysGetdents t D fuel v fd dirp count mem s) ((pos : ℤ), mem', s') ∧
      pos ≤ count.toNat ∧
      (∀ a, a < dirp ∨ dirp + count.toNat ≤ a → mem' a = mem a) ∧
      Returns (fun fuel => lsLoop t mem' dirp pos fuel 0) ((es.take m).map visit, pos) := by
  obtain ⟨htake, hgreatest⟩ := leading_greatest t count.toNat es
  have hle := total_leading_le t count.toNat es
  obtain ⟨mem', s', hcall, _, hlaid, hout⟩ :=
    sysGetdents_spec (t := t) hes hroot (min_lt_of_left_lt hcount) fd dirp mem hs
  refine ⟨_, _, mem', s', hgreatest, hcall, hle, fun a ha => hout a (by omega), ?_⟩
  rw [← htake]
  exact lsLoop_spec hlaid (Nat.zero_add _).symm

/-- A directory of the entries `es`, at any node. -/
def dirOf (es : List DirEntry) : DirDriver Unit Unit where
  flags := fun _ _ => 2
  finddir := fun _ _ => none
  readdir := fun _ _ => some fun index s => (es[index.toNat]?, s)

theorem dirOf_yields (es : List DirEntry) : Yields (dirOf es) () es fun _ => True := by
  intro s _
  have hdir : (2 : BitVec 32) &&& 2 ≠ 0 := by decide
  exact ⟨hdir, _, rfl, fun _ => ⟨rfl, trivial⟩⟩

/-- An entry whose name is `n` times the letter `e`. -/
def entryOf (n : Fin 128) (ino : BitVec 32) : DirEntry :=
  ⟨List.replicate n ⟨0x65, by decide⟩, ino, by rw [List.length_replicate]; exact n.isLt⟩

def shortEntry : DirEntry := entryOf 1 5

/-- Entries of which two, but not all, fit into 64 bytes. -/
def threeEntries : List DirEntry := [shortEntry, entryOf 2 6, entryOf 20 7]

theorem threeEntries_fit {m : ℕ} (hm : IsGreatest {m | m ≤ threeEntries.length ∧
    total .i386 (threeEntries.take m) ≤ (64 : BitVec 32).toNat} m) : m = 2 := by
  have hle : 2 ≤ m := hm.2 ⟨by decide, by decide⟩
  have hlen : m ≤ 3 := hm.1.1
  obtain rfl | rfl : m = 2 ∨ m = 3 := by omega
  · rfl
  · exact absurd hm.1.2 (by decide)

/-- In 64 bytes the shell finds two of the three entries. -/
theorem getdents_round_trip_three :
    ∃ (pos : ℕ) (mem' : Bytes), pos ≤ 64 ∧
      Returns (fun fuel => lsLoop .i386 mem' 0x800000 pos fuel 0)
        ([⟨5, [⟨0x65, by decide⟩]⟩, ⟨6, [⟨0x65, by decide⟩, ⟨0x65, by decide⟩]⟩], pos) := by
  have hcount : (64 : BitVec 32).toNat < 2 ^ 31 := by decide
  obtain ⟨m, pos, mem', _, hm, _, hpos, _, hls⟩ := getdents_round_trip (t := .i386)
    (dirOf_yields threeEntries) (v := ⟨some (), []⟩) rfl 0 0x800000 hcount (fun _ => 0) (s := ())
    trivial
  obtain rfl := threeEntries_fit hm
  exact ⟨pos, mem', hpos, hls⟩

/-! ### One call after the other -/

/-- A call of `sys_getdents`: what it returns, and the records the shell finds. -/
structure GetdentsCall where
  ret : ℤ
  records : List Visit

/-- One call on the descriptor `fd`; the shell keeps what it returns in an `int`. -/
def GetdentsStep (t : Target) (D : DirDriver N σ) (v : Vfs N) (fd : BitVec 32) (dirp : ℕ)
    (count : BitVec 32) (before : Bytes × σ) (call : GetdentsCall) (after : Bytes × σ) : Prop :=
  Returns (fun fuel => sysGetdents t D fuel v fd dirp count before.1 before.2) (call.ret, after) ∧
    ∃ bpos, Returns (fun fuel => lsLoop t after.1 dirp (BitVec.ofInt 32 call.ret).toInt fuel 0)
      (call.records, bpos)

/-- Calls on the descriptor until one returns 0 list each of the entries once, in order. -/
def Enumerates (t : Target) (D : DirDriver N σ) (v : Vfs N) (fd : BitVec 32) (dirp : ℕ)
    (count : BitVec 32) (es : List DirEntry) (before : Bytes × σ) : Prop :=
  ∃ calls last after, Run (GetdentsStep t D v fd dirp count) before (calls ++ [last]) after ∧
    last.ret = 0 ∧ (calls ++ [last]).flatMap GetdentsCall.records = es.map visit

/-- The call every call is: the leading entries whose records fit. -/
def firstCall (t : Target) (count : ℕ) (es : List DirEntry) : GetdentsCall where
  ret := total t (leading t count es)
  records := (leading t count es).map visit

/-- A call makes the records of the leading entries, whatever the drivers went through before. -/
theorem getdentsStep_iff (hes : Yields D root es I) {v : Vfs N} (hroot : v.rootNode = some root)
    {count : BitVec 32} (hless : min count.toNat (total t es) < 2 ^ 31) (fd : BitVec 32) (dirp : ℕ)
    (mem : Bytes) {s : σ} (hs : I s) :
    ∃ after, I after.2 ∧ ∀ call after', GetdentsStep t D v fd dirp count (mem, s) call after' ↔
      call = firstCall t count.toNat es ∧ after' = after := by
  obtain ⟨mem', s', hcall, hs', hlaid, _⟩ := sysGetdents_spec hes hroot hless fd dirp mem hs
  have hls : Returns (fun fuel => lsLoop t mem' dirp
      (BitVec.ofInt 32 (total t (leading t count.toNat es))).toInt fuel 0)
      ((leading t count.toNat es).map visit, total t (leading t count.toNat es)) := by
    rw [toInt_ofInt_of_lt (total_leading_lt hless)]
    exact lsLoop_spec hlaid (Nat.zero_add _).symm
  refine ⟨(mem', s'), hs', fun call after => ⟨fun h => ?_, ?_⟩⟩
  · obtain ⟨hret, bpos, hrecords⟩ := h
    obtain ⟨ret, records⟩ := call
    obtain ⟨rfl, rfl⟩ := Prod.mk.inj (hret.unique hcall)
    obtain ⟨rfl, rfl⟩ := Prod.mk.inj (hrecords.unique hls)
    exact ⟨rfl, rfl⟩
  · rintro ⟨rfl, rfl⟩
    exact ⟨hcall, _, hls⟩

/-- If an entry's record fits, so does the first one's: the records are none only if there is no
entry. -/
theorem total_leading_eq_zero {room : ℕ} (hfits : ∀ e ∈ es, recordSize t e ≤ room) :
    total t (leading t room es) = 0 ↔ es = [] := by
  cases es with
  | nil => exact iff_of_true rfl rfl
  | cons e es =>
      have hsize := (recordSize_bounds t e).1
      rw [leading, if_pos (hfits e List.mem_cons_self), total_cons]
      exact iff_of_false (by omega) (List.cons_ne_nil e es)

theorem leading_all {room : ℕ} (h : total t es ≤ room) : leading t room es = es := by
  obtain ⟨htake, hgreatest⟩ := leading_greatest t room es
  have hall : es.length ≤ (leading t room es).length :=
    hgreatest.2 ⟨Nat.le_refl _, by rwa [List.take_length]⟩
  rw [htake, List.take_of_length_le hall]

/-- All calls in a row are the same call. -/
theorem getdents_calls_eq (hes : Yields D root es I) {v : Vfs N} (hroot : v.rootNode = some root)
    {count : BitVec 32} (hless : min count.toNat (total t es) < 2 ^ 31) {fd : BitVec 32} {dirp : ℕ}
    {before after : Bytes × σ} (hs : I before.2) {calls : List GetdentsCall}
    (hrun : Run (GetdentsStep t D v fd dirp count) before calls after) :
    I after.2 ∧ ∀ call ∈ calls, call = firstCall t count.toNat es := by
  have hstart : I before.2 ∧ ∀ call ∈ ([] : List GetdentsCall), call = firstCall t count.toNat es :=
    ⟨hs, fun _ hcall => by cases hcall⟩
  refine hrun.inv_history (I := fun calls at' =>
    I at'.2 ∧ ∀ call ∈ calls, call = firstCall t count.toNat es) ?_ hstart
  rintro ls ⟨mem, s⟩ call after' ⟨hs, hcalls⟩ hstep
  obtain ⟨after, hafter, hiff⟩ := getdentsStep_iff hes hroot hless fd dirp mem hs
  obtain ⟨rfl, rfl⟩ := (hiff call after').mp hstep
  refine ⟨hafter, fun call' hcall' => ?_⟩
  rcases List.mem_append.mp hcall' with hcall' | hcall'
  · exact hcalls call' hcall'
  · exact List.mem_singleton.mp hcall'

/-- **Every call starts again at the first entry.**  Each of any calls in a row on a descriptor
returns and makes the records of the same leading entries, as many as fit: all of them, if all do.
It returns 0 only if there is no entry, so on a directory with entries the calls never end. -/
theorem getdents_restarts (hes : Yields D root es I) {v : Vfs N} (hroot : v.rootNode = some root)
    {count : BitVec 32} (hless : min count.toNat (total t es) < 2 ^ 31)
    (hfits : ∀ e ∈ es, recordSize t e ≤ count.toNat) (fd : BitVec 32) (dirp : ℕ)
    (before : Bytes × σ) (hs : I before.2) :
    ∃ m, IsGreatest {m | m ≤ es.length ∧ total t (es.take m) ≤ count.toNat} m ∧
      ∀ calls after, Run (GetdentsStep t D v fd dirp count) before calls after →
        (∃ call after', GetdentsStep t D v fd dirp count after call after') ∧
        ∀ call ∈ calls, call.ret = total t (es.take m) ∧
          call.records = (es.take m).map visit ∧
          (total t es ≤ count.toNat → call.records = es.map visit) ∧
          (call.ret = 0 ↔ es = []) := by
  obtain ⟨htake, hgreatest⟩ := leading_greatest t count.toNat es
  refine ⟨_, hgreatest, fun calls after hrun => ?_⟩
  rw [← htake]
  obtain ⟨hs', hcalls⟩ := getdents_calls_eq hes hroot hless hs hrun
  refine ⟨?_, fun call hcall => ?_⟩
  · obtain ⟨after', -, hiff⟩ := getdentsStep_iff hes hroot hless fd dirp after.1 hs'
    exact ⟨_, after', (hiff _ after').mpr ⟨rfl, rfl⟩⟩
  · obtain rfl := hcalls call hcall
    refine ⟨rfl, rfl, fun hall => ?_, ?_⟩
    · rw [firstCall, leading_all hall]
    · rw [firstCall, Int.natCast_eq_zero, total_leading_eq_zero hfits]

/-- Each record of the three fits into 64 bytes, and two calls both make the first two. -/
theorem getdents_restarts_three :
    ∃ (before after : Bytes × Unit) (first second : GetdentsCall),
      Run (GetdentsStep .i386 (dirOf threeEntries) ⟨some (), []⟩ 3 0x800000 64) before
        [first, second] after ∧
      first.records = (threeEntries.take 2).map visit ∧ second.records = first.records := by
  have hless : min (64 : BitVec 32).toNat (total .i386 threeEntries) < 2 ^ 31 := by decide
  obtain ⟨m, hm, hrun⟩ := getdents_restarts (t := .i386) (v := ⟨some (), []⟩)
    (dirOf_yields threeEntries) rfl hless (by decide) 3 0x800000 (fun _ => 0, ()) trivial
  obtain ⟨⟨first, mid, hfirst⟩, -⟩ := hrun [] _ (.refl _)
  obtain ⟨⟨second, after, hsecond⟩, -⟩ := hrun [first] _ (.one hfirst)
  obtain ⟨-, hboth⟩ := hrun [first, second] _ (.more hfirst (.one hsecond))
  have h₁ := (hboth first List.mem_cons_self).2.1
  have h₂ := (hboth second (List.mem_cons_of_mem _ List.mem_cons_self)).2.1
  rw [threeEntries_fit hm] at h₁ h₂
  exact ⟨_, _, first, second, .more hfirst (.one hsecond), h₁, h₂.trans h₁.symm⟩

/-- On a directory of one entry no call returns 0. -/
theorem getdents_never_ends :
    ¬ ∀ (D : DirDriver Unit Unit) (v : Vfs Unit) (es : List DirEntry) (count : BitVec 32)
      (before : Bytes × Unit), Yields D () es (fun _ => True) → v.rootNode = some () →
      (∀ e ∈ es, recordSize .x86_64 e ≤ count.toNat) →
      Enumerates .x86_64 D v 3 0x800000 count es before := by
  intro hall
  obtain ⟨calls, last, after, hrun, hlast, -⟩ := hall (dirOf [shortEntry]) ⟨some (), []⟩
    [shortEntry] 64 (fun _ => 0, ()) (dirOf_yields _) rfl (by decide)
  obtain ⟨-, hcalls⟩ := getdents_calls_eq (dirOf_yields _) rfl (by decide) trivial hrun
  rw [hcalls last (List.mem_append_right _ List.mem_cons_self)] at hlast
  have hret : (firstCall .x86_64 64 [shortEntry]).ret ≠ 0 := by decide
  exact hret hlast

/-- A directory of `2 ^ 28` entries, whose records take up `2 ^ 32` bytes on i386. -/
def wideDir : DirDriver Unit Unit := dirOf (List.replicate (2 ^ 28) shortEntry)

/-- With `n` entries to go in a buffer of `2 ^ 32 - 1` bytes, `pos` ends at 0. -/
theorem wideDir_loop (dirp : ℕ) (n : ℕ) : ∀ {k : ℕ} (mem : Bytes), k + n = 2 ^ 28 →
    ∃ mem', ∀ fuel > n, getdentsLoop .i386 wideDir () dirp (-1) fuel (BitVec.ofNat 32 (16 * k))
      (BitVec.ofNat 32 k) mem () = some (0, mem', ()) := by
  have hread : ∀ k < 2 ^ 32, vfsReaddir wideDir (some ()) (BitVec.ofNat 32 k) () =
      (if k < 2 ^ 28 then some shortEntry else none, ()) := by
    intro k hk
    obtain ⟨s', h, -⟩ := vfsReaddir_yields (dirOf_yields (List.replicate (2 ^ 28) shortEntry))
      (BitVec.ofNat 32 k) (s := ()) trivial
    rw [wideDir, h, BitVec.toNat_ofNat, Nat.mod_eq_of_lt hk, List.getElem?_replicate]
  have hmax : ∀ x : BitVec 32, ¬ (-1 : BitVec 32) < x := by
    intro x h
    have hx := x.isLt
    have hone : (-1 : BitVec 32).toNat = 2 ^ 32 - 1 := by decide
    rw [BitVec.lt_def, hone] at h
    omega
  induction n with
  | zero =>
      intro k mem hk
      refine ⟨mem, fun fuel hfuel => ?_⟩
      obtain ⟨fuel, rfl⟩ := Nat.exists_eq_succ_of_ne_zero (Nat.ne_zero_of_lt hfuel)
      rw [getdentsLoop, hread k (by omega), if_neg (by omega), Nat.eq_sub_of_add_eq hk]
      rfl
  | succ n ih =>
      intro k mem hk
      have hsize : (reclen .i386 shortEntry.name.length).setWidth 32 = BitVec.ofNat 32 16 := by
        decide
      have hpos : BitVec.ofNat 32 (16 * k) + BitVec.ofNat 32 16 =
          BitVec.ofNat 32 (16 * (k + 1)) := by
        rw [← BitVec.ofNat_add, Nat.mul_succ]
      have hindex : BitVec.ofNat 32 k + 1 = BitVec.ofNat 32 (k + 1) := (BitVec.ofNat_add k 1).symm
      obtain ⟨mem', hloop⟩ := ih (storeRecord .i386
        (dirp + (BitVec.ofNat 32 (16 * k)).toNat) shortEntry (BitVec.ofNat 32 (16 * (k + 1)))
        (reclen .i386 shortEntry.name.length) mem)
        (show k + 1 + n = 2 ^ 28 by omega)
      refine ⟨mem', fun fuel hfuel => ?_⟩
      obtain ⟨fuel, rfl⟩ := Nat.exists_eq_succ_of_ne_zero (Nat.ne_zero_of_lt hfuel)
      rw [getdentsLoop, hread k (by omega), if_pos (by omega)]
      dsimp only
      rw [hsize, hpos, if_neg (hmax _), hindex]
      exact hloop fuel (Nat.lt_of_succ_lt_succ hfuel)

/-- Where `pos` wraps, a call can return 0 on a directory with entries, all of whose records fit. -/
theorem getdents_wraps (dirp : ℕ) (mem : Bytes) :
    ∃ mem', Returns (fun fuel => sysGetdents .i386 wideDir fuel ⟨some (), []⟩ 3 dirp (-1) mem ())
      (0, mem', ()) := by
  obtain ⟨mem', hloop⟩ := wideDir_loop dirp (2 ^ 28) mem (Nat.zero_add _)
  refine ⟨mem', 2 ^ 28 + 1, fun fuel hfuel => ?_⟩
  have hcall : getdentsLoop .i386 wideDir () dirp (-1) fuel 0 0 mem () = some (0, mem', ()) :=
    hloop fuel hfuel
  dsimp only [sysGetdents]
  rw [hcall]
  rfl

end ZeptoOS.Syscall
