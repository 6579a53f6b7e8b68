import ZeptoOS.Syscall.Initrd
import ZeptoOS.Syscall.LineEdit
import ZeptoOS.User.Shell

/-!
# User — Init

`user/init.c` over `syscall_handler`: the program's strings and buffers lie in memory, and all it
does with the rest of the world it does by system calls.  The kernel behind them is the one that
`kmain` leaves, with the boot archive at the root; its world is the keys to come and the strings
printed so far, which `Core/Serial` has on the screen and on the line.

Each function has one lemma that says what it returns, and what it printed: `writeString_returns`,
`stringCompareAt_returns`, `lsEntries_returns`, `sysRead_keyboard`.
-/

namespace ZeptoOS.User
open Lib Fs Syscall

/-! ### The kernel behind the system calls -/

/-- The keys that will be typed, of which `next` were read, and the strings printed. -/
structure World where
  keys : ℕ → BitVec 8
  next : ℕ
  printed : List (List (BitVec 8))

/-- The text printed. -/
def World.text (w : World) : List (BitVec 8) := w.printed.flatMap Core.Vga.chars

/-- The kernel with the tables of an archive.  The program does not call `sys_exit`. -/
def initrdKernel (tar : Tar) : Kernel TarNode World where
  flags _ n := n.flags
  finddir _ n :=
    match n.finddir with
    | some .tarFinddir => some fun name w => (tarFinddir tar (name.map (·.1)), w)
    | _ => none
  readdir _ n :=
    match n.readdir with
    | some .tarReaddir => some fun index w => ((tarReaddir tar index).map dirEntry, w)
    | _ => none
  mkdir _ _ := some fun _ _ w => (0, w)
  link _ _ := some fun _ _ w => (0, w)
  unlink _ _ := some fun _ w => (0, w)
  keyboardGetChar w := (w.keys w.next, { w with next := w.next + 1 })
  kprintf str w := { w with printed := w.printed ++ [str] }
  taskExit w := w

/-- The machine as the program sees it. -/
abbrev UserMachine := Syscall.Machine TarNode World

/-! ### The program -/

/-- Where the string literals and the buffers of the program are. -/
structure InitImage where
  lit : List (BitVec 8) → ℕ
  buf : ℕ
  dbuf : ℕ

section Program

variable (t : Target) (tar : Tar) (P : InitImage) (fuel : ℕ)

/-- `syscall3` -/
def syscall3 (number arg1 arg2 arg3 : BitVec t.ptrBits) (m : UserMachine) :
    Option (BitVec t.ptrBits × UserMachine) :=
  (syscallHandler (initrdKernel tar) t fuel ⟨number, arg1, arg2, arg3⟩ m).map fun (regs, m) =>
    (regs.number, m)

/-- `string_length` -/
def stringLength (mem : Bytes) : ℕ → ℕ → Option ℕ
  | 0, _ => none
  | n + 1, str => if mem str ≠ 0 then (stringLength mem n (str + 1)).map (· + 1) else some 0

/-- `string_compare` -/
def stringCompareAt (mem : Bytes) : ℕ → ℕ → ℕ → Option ℤ
  | 0, _, _ => none
  | n + 1, s1, s2 =>
      if mem s1 ≠ 0 ∧ mem s1 = mem s2 then stringCompareAt mem n (s1 + 1) (s2 + 1)
      else some ((mem s1).toNat - (mem s2).toNat)

/-- `write_string` -/
def writeStringAt (str : ℕ) (m : UserMachine) : Option UserMachine :=
  (stringLength m.mem fuel str).bind fun len =>
    (syscall3 t tar fuel 4 1 (BitVec.ofNat _ str) (BitVec.ofNat _ len) m).map (·.2)

/-- `write_string` of a literal -/
def writeLit (s : String) (m : UserMachine) : Option UserMachine :=
  writeStringAt t tar fuel (P.lit (ascii s)) m

/-- The loop of `ls` with `n` turns left, at `bpos`. -/
def lsEntries (nread : ℤ) : ℕ → ℕ → UserMachine → Option UserMachine
  | 0, _, _ => none
  | n + 1, bpos, m =>
      if bpos < nread then
        let d := P.dbuf + bpos
        (writeStringAt t tar fuel (d + t.direntName) m).bind fun m =>
          (writeLit t tar P fuel "\n" m).bind fun m =>
            lsEntries nread n (bpos + leAt m.mem (d + t.direntReclen) 2) m
      else some m

/-- The branch of `ls`. -/
def ls (m : UserMachine) : Option UserMachine :=
  (syscall3 t tar fuel 141 0 (BitVec.ofNat _ P.dbuf) 1024 m).bind fun (ret, m) =>
    lsEntries t tar P fuel (ret.setWidth 32).toInt fuel 0 m

/-- `if (string_compare(buf, name) == 0)` -/
def ifCommand {A : Type} (name : String) (m : UserMachine) (yes no : Option A) : Option A :=
  (stringCompareAt m.mem fuel P.buf (P.lit (ascii name))).bind fun c => if c = 0 then yes else no

/-- The branches on the command: whether the loop goes on, and the machine after. -/
def runCommandAt (m : UserMachine) : Option (Bool × UserMachine) :=
  ifCommand P fuel "help" m
    ((writeLit t tar P fuel "Available commands: help, ls, hello, clear, exit\n" m).map
      (true, ·)) <|
  ifCommand P fuel "ls" m ((ls t tar P fuel m).map (true, ·)) <|
  ifCommand P fuel "hello" m
    ((writeLit t tar P fuel "Hello World With File System\n" m).map (true, ·)) <|
  ifCommand P fuel "clear" m ((writeLit t tar P fuel "\x1b[2J\x1b[H" m).map (true, ·)) <|
  ifCommand P fuel "exit" m ((writeLit t tar P fuel "Goodbye!\n" m).map (false, ·)) <|
  if m.mem P.buf ≠ 0 then
    (writeLit t tar P fuel "Unknown command: " m).bind fun m =>
      (writeStringAt t tar fuel P.buf m).bind fun m => (writeLit t tar P fuel "\n" m).map (true, ·)
  else some (true, m)

/-- `buf[len - 1] = '\0'`, and the same before it where there is a carriage return. -/
def cutLine (len : ℕ) (mem : Bytes) : Bytes :=
  let mem := Function.update mem (P.buf + (len - 1)) 0
  if 1 < len ∧ mem (P.buf + (len - 2)) = 0x0D then Function.update mem (P.buf + (len - 2)) 0
  else mem

/-- A turn of the loop of `_start`. -/
def initTurn (m : UserMachine) : Option (Bool × UserMachine) :=
  (writeLit t tar P fuel "zepto> " m).bind fun m =>
    (syscall3 t tar fuel 3 0 (BitVec.ofNat _ P.buf) 127 m).bind fun (ret, m) =>
      let len := (ret.setWidth 32).toInt
      if len ≤ 0 then some (true, m)
      else runCommandAt t tar P fuel { m with mem := cutLine P len.toNat m.mem }

end Program

/-- The program between two turns of its loop; after `exit` it only spins. -/
structure InitState where
  running : Bool
  machine : UserMachine

/-- A turn of the loop, with the keys it read. -/
def InitStep (t : Target) (tar : Tar) (P : InitImage) (s : InitState) (cs : List (BitVec 8))
    (s' : InitState) : Prop :=
  s.running = true ∧
    Returns (fun fuel => initTurn t tar P fuel s.machine) (s'.running, s'.machine) ∧
    ∃ n, s'.machine.world.next = s.machine.world.next + n ∧
      cs = slice s.machine.world.keys s.machine.world.next n

/-- `_start`, up to its loop. -/
def InitStart (t : Target) (tar : Tar) (P : InitImage) (m : UserMachine) (s : InitState) : Prop :=
  s.running = true ∧
    Returns (fun fuel => writeLit t tar P fuel "ZeptoOS Shell v1.0\n" m) s.machine

/-- The string literals of the program. -/
def literals : List String :=
  ["ZeptoOS Shell v1.0\n", "zepto> ", "help", "Available commands: help, ls, hello, clear, exit\n",
    "ls", "\n", "hello", "Hello World With File System\n", "clear", "\x1b[2J\x1b[H", "exit",
    "Goodbye!\n", "Unknown command: "]

/-- A small number comes back as an `int`. -/
theorem toInt_word (t : Target) {n : ℕ} (h : n < 2 ^ 31) :
    ((BitVec.ofNat t.ptrBits n).setWidth 32).toInt = n := by
  have hnat : ((BitVec.ofNat t.ptrBits n).setWidth 32).toNat = n := by
    rw [BitVec.toNat_setWidth, BitVec.toNat_ofNat]
    cases t <;> simp only [Target.ptrBits] <;> omega
  rw [BitVec.toInt_eq_toNat_of_lt (by rw [hnat]; omega), hnat]

/-! ### The memory of the program -/

/-- The literals and the buffers are addressable, and no literal is in a buffer. -/
structure Placed (t : Target) (P : InitImage) : Prop where
  buf_end : P.buf + 128 ≤ 2 ^ t.ptrBits
  dbuf_end : P.dbuf + 1024 ≤ 2 ^ t.ptrBits
  lit_lt : ∀ s ∈ literals, P.lit (ascii s) < 2 ^ t.ptrBits
  apart : ∀ s ∈ literals, ∀ a, P.lit (ascii s) ≤ a → a ≤ P.lit (ascii s) + (ascii s).length →
    (a < P.buf ∨ P.buf + 128 ≤ a) ∧ (a < P.dbuf ∨ P.dbuf + 1024 ≤ a)

/-- The literals are where they are expected. -/
def Loaded (P : InitImage) (mem : Bytes) : Prop :=
  ∀ s ∈ literals, Holds mem (P.lit (ascii s)) (ascii s ++ [0])

/-- Memory differs in the buffers at most. -/
def OnlyBuffers (P : InitImage) (mem mem' : Bytes) : Prop :=
  ∀ a, (a < P.buf ∨ P.buf + 128 ≤ a) → (a < P.dbuf ∨ P.dbuf + 1024 ≤ a) → mem' a = mem a

variable {t : Target} {tar : Tar} {P : InitImage} {mem mem' : Bytes} {m : UserMachine}

theorem OnlyBuffers.trans {mem₁ : Bytes} (h : OnlyBuffers P mem mem₁)
    (h' : OnlyBuffers P mem₁ mem') : OnlyBuffers P mem mem' :=
  fun a hb hd => (h' a hb hd).trans (h a hb hd)

theorem Loaded.of_onlyBuffers (hP : Placed t P) (h : Loaded P mem) (hmem : OnlyBuffers P mem mem') :
    Loaded P mem' := fun s hs =>
  (h s hs).of_agree fun a h₁ h₂ => by
    rw [List.length_append, List.length_singleton] at h₂
    obtain ⟨hb, hd⟩ := hP.apart s hs a h₁ (by omega)
    exact hmem a hb hd

theorem ascii_ne : ∀ s ∈ literals, ∀ b ∈ ascii s, b ≠ 0 := by decide +kernel

theorem ascii_length : ∀ s ∈ literals, (ascii s).length < 64 := by decide +kernel

/-! ### Printing -/

/-- The machine after the characters of a string were printed, one by one. -/
def say (s : List (BitVec 8)) (m : UserMachine) : UserMachine :=
  { m with world := { m.world with printed := m.world.printed ++ s.map fun c => [c] } }

theorem chars_singleton {c : BitVec 8} (h : c ≠ 0) : Core.Vga.chars [c] = [c] :=
  List.takeWhile_cons_of_pos (by simpa using h)

theorem text_say {s : List (BitVec 8)} (hs : ∀ b ∈ s, b ≠ 0) :
    (say s m).world.text = m.world.text ++ s := by
  have hchars : (s.map fun c => [c]).flatMap Core.Vga.chars = s := by
    induction s with
    | nil => rfl
    | cons c s ih =>
        rw [List.map_cons, List.flatMap_cons, chars_singleton (hs c List.mem_cons_self),
          ih fun b hb => hs b (List.mem_cons_of_mem _ hb)]
        rfl
  rw [World.text, say, List.flatMap_append, hchars, World.text]

/-- The loop of `sys_write` prints the characters one by one. -/
theorem writeLoop_initrd (mem : Bytes) : ∀ (n a : ℕ) (w : World),
    (∀ b ∈ slice mem a n, b ≠ 0) → writeLoop (initrdKernel tar) mem n a w =
      { w with printed := w.printed ++ (slice mem a n).map fun c => [c] }
  | 0, a, w, _ => by
      rw [slice, List.range_zero, List.map_nil, List.map_nil, List.append_nil]
      rfl
  | n + 1, a, w, h => by
      rw [slice_succ] at h ⊢
      have ha := h (mem a) List.mem_cons_self
      rw [writeLoop, writeLoop_initrd mem n (a + 1) _ fun b hb => h b (List.mem_cons_of_mem _ hb),
        if_neg ha, List.map_cons]
      dsimp only [initrdKernel]
      rw [List.append_assoc, List.singleton_append]

theorem stringLength_returns {s : List (BitVec 8)} (hs : ∀ b ∈ s, b ≠ 0) {a : ℕ}
    (h : Holds mem a (s ++ [0])) : Returns (fun fuel => stringLength mem fuel a) s.length := by
  induction s generalizing a with
  | nil => exact .stop fun fuel => if_neg (not_not.mpr (holds_cons.mp h).1)
  | cons c s ih =>
      obtain ⟨hc, hrest⟩ := holds_cons.mp h
      have hne : mem a ≠ 0 := hc ▸ hs c List.mem_cons_self
      exact (ih (fun b hb => hs b (List.mem_cons_of_mem _ hb)) hrest).turn
        fun fuel => if_pos hne

/-- **Printing a string.** -/
theorem writeString_returns (tar : Tar) {s : List (BitVec 8)} (hs : ∀ b ∈ s, b ≠ 0) {a : ℕ}
    (h : Holds m.mem a (s ++ [0])) (ha : a < 2 ^ t.ptrBits) (hlen : s.length < 2 ^ 32) :
    Returns (fun fuel => writeStringAt t tar fuel a m) (say s m) := by
  have hbits : 2 ^ 32 ≤ 2 ^ t.ptrBits := by cases t <;> decide
  have hslice : slice m.mem a s.length = s := by
    have htake := h.slice_take (n := s.length) (by simp)
    rwa [List.take_left' rfl] at htake
  have hcall : ∀ fuel, syscall3 t tar fuel 4 1 (BitVec.ofNat _ a) (BitVec.ofNat _ s.length) m =
      some (BitVec.ofNat t.ptrBits s.length, say s m) := by
    intro fuel
    have hnumber : (4 : BitVec t.ptrBits).toNat = 4 := by cases t <;> rfl
    have hfd : (1 : BitVec t.ptrBits).setWidth 32 = 1 := by cases t <;> rfl
    have hstr : (BitVec.ofNat t.ptrBits a).toNat = a := Nat.mod_eq_of_lt ha
    have hcount : (BitVec.ofNat t.ptrBits s.length).toNat = s.length :=
      Nat.mod_eq_of_lt (by omega)
    simp only [syscall3, syscallHandler, hnumber, hfd, sysWrite, hstr, hcount, Machine.ret,
      Regs.setRet]
    rw [if_pos (.inl trivial), writeLoop_initrd _ _ _ _ (by rwa [hslice]), hslice]
    rfl
  exact (stringLength_returns hs h).bind ⟨0, fun fuel _ => by
    dsimp only
    rw [hcall]
    rfl⟩

/-- **Printing a literal.** -/
theorem writeLit_returns (tar : Tar) (hP : Placed t P) (hlit : Loaded P m.mem) {s : String}
    (hs : s ∈ literals) : Returns (fun fuel => writeLit t tar P fuel s m) (say (ascii s) m) :=
  writeString_returns tar (ascii_ne s hs) (hlit s hs) (hP.lit_lt s hs)
    (Nat.lt_trans (ascii_length s hs) (by decide))

/-! ### Comparing -/

/-- **`string_compare`** is zero of equal strings only. -/
theorem stringCompareAt_returns {s s' : List (BitVec 8)} (hs : ∀ b ∈ s, b ≠ 0)
    (hs' : ∀ b ∈ s', b ≠ 0) {a a' : ℕ} (h : Holds mem a (s ++ [0]))
    (h' : Holds mem a' (s' ++ [0])) :
    ∃ c, Returns (fun fuel => stringCompareAt mem fuel a a') c ∧ (c = 0 ↔ s = s') := by
  have hdiff : ∀ x y : BitVec 8, (x.toNat : ℤ) - y.toNat = 0 ↔ x = y := fun x y => by
    rw [Int.sub_eq_zero, Int.ofNat_inj, BitVec.toNat_inj]
  induction s generalizing s' a a' with
  | nil =>
      have ha : mem a = 0 := (holds_cons.mp h).1
      refine ⟨_, .stop fun fuel => if_neg fun hboth => hboth.1 ha, ?_⟩
      rw [hdiff, ha]
      cases s' with
      | nil => exact iff_of_true (holds_cons.mp h').1.symm rfl
      | cons d s' =>
          refine iff_of_false (fun e => hs' d List.mem_cons_self ?_) (List.cons_ne_nil d s').symm
          rw [e, (holds_cons.mp h').1]
  | cons c s ih =>
      obtain ⟨hc, hrest⟩ := holds_cons.mp h
      have hne := hs c List.mem_cons_self
      cases s' with
      | nil =>
          have ha' : mem a' = 0 := (holds_cons.mp h').1
          refine ⟨_, .stop fun fuel => if_neg fun hboth => ?_, ?_⟩
          · exact hboth.1 (hboth.2.trans ha')
          · rw [hdiff, hc, ha']
            exact iff_of_false hne (List.cons_ne_nil c s)
      | cons d s' =>
          obtain ⟨hd, hrest'⟩ := holds_cons.mp h'
          by_cases e : c = d
          · subst e
            obtain ⟨r, hret, hiff⟩ := ih (fun b hb => hs b (List.mem_cons_of_mem _ hb))
              (fun b hb => hs' b (List.mem_cons_of_mem _ hb)) hrest hrest'
            refine ⟨r, hret.skip fun fuel => if_pos ⟨hc ▸ hne, hc.trans hd.symm⟩, ?_⟩
            rw [hiff, List.cons.injEq, and_iff_right rfl]
          · refine ⟨_, .stop fun fuel => if_neg fun hboth => ?_, ?_⟩
            · exact e (hc.symm.trans (hboth.2.trans hd))
            · rw [hdiff, hc, hd]
              exact iff_of_false e fun h => e (List.cons.inj h).1

/-! ### Reading a line -/

/-- What `sys_read` prints for the key `c` behind the keys `cs`. -/
def echoKey (cs : List (BitVec 8)) (c : BitVec 8) : List (BitVec 8) :=
  if c = 0x08 then if cancel cs = [] then [] else [0x08, 0x20, 0x08]
  else if IsEnd c then [0x0A]
  else [c]

/-- What it prints for the keys `ks` behind the keys `cs`. -/
def echo (cs : List (BitVec 8)) : List (BitVec 8) → List (BitVec 8)
  | [] => []
  | c :: ks => echoKey cs c ++ echo (cs ++ [c]) ks

/-- The keys `ks` are the shortest piece that is enough for a call for `len`, behind `cs`. -/
structure Piece (len : ℕ) (cs ks : List (BitVec 8)) : Prop where
  ends : Ends len (cs ++ ks)
  shortest : ∀ m < ks.length, ¬ Ends len (cs ++ ks.take m)

instance (len : ℕ) (cs : List (BitVec 8)) : Decidable (Ends len cs) :=
  inferInstanceAs (Decidable ((∃ c ∈ cs.getLast?, IsEnd c) ∨ (cancel cs).length = len))

instance (len : ℕ) (cs ks : List (BitVec 8)) : Decidable (Piece len cs ks) :=
  decidable_of_iff (Ends len (cs ++ ks) ∧ ∀ m < ks.length, ¬ Ends len (cs ++ ks.take m))
    ⟨fun h => ⟨h.1, h.2⟩, fun h => ⟨h.ends, h.shortest⟩⟩

theorem Piece.cons {len : ℕ} {cs ks : List (BitVec 8)} {c : BitVec 8}
    (h : Piece len cs (c :: ks)) : Piece len (cs ++ [c]) ks where
  ends := by
    rw [List.append_assoc]
    exact h.ends
  shortest m hm := by
    have hlt : m + 1 < (c :: ks).length := Nat.succ_lt_succ hm
    have hnot := h.shortest (m + 1) hlt
    rwa [List.take_succ_cons, ← List.singleton_append, ← List.append_assoc] at hnot

/-- A turn of the loop of `sys_read` on the key `c`. -/
theorem readLoop_initrd {buf len written : ℕ} {mem : Bytes} {w : World} {c : BitVec 8}
    (hlt : written < len) (hkey : c = w.keys w.next) (hc : c ≠ 0) (fuel : ℕ) :
    readLoop (initrdKernel tar) buf len (fuel + 1) written mem w =
      if c = 0x08 then
        if 0 < written then
          readLoop (initrdKernel tar) buf len fuel (written - 1) mem
            ⟨w.keys, w.next + 1, w.printed ++ [[0x08, 0x20, 0x08]]⟩
        else readLoop (initrdKernel tar) buf len fuel written mem ⟨w.keys, w.next + 1, w.printed⟩
      else if IsEnd c then
        some (written + 1, Function.update mem (buf + written) 0x0A,
          ⟨w.keys, w.next + 1, w.printed ++ [[0x0A]]⟩)
      else
        readLoop (initrdKernel tar) buf len fuel (written + 1)
          (Function.update mem (buf + written) c) ⟨w.keys, w.next + 1, w.printed ++ [[c]]⟩ := by
  have hstr : (if c = 0 then [] else [c]) = [c] := if_neg hc
  rw [readLoop, if_pos hlt]
  dsimp only [initrdKernel]
  rw [← hkey, hstr]
  rfl

/-- The loop of `sys_read` takes the keys `ks` and returns: the line that is typed by then is in the
buffer, and its echo was printed. -/
def TakesPiece (tar : Tar) (buf len : ℕ) (cs ks : List (BitVec 8)) (written : ℕ) (mem : Bytes)
    (w : World) : Prop :=
  ∃ mem' strs, (∀ fuel > ks.length, readLoop (initrdKernel tar) buf len fuel written mem w =
      some ((lineText (cs ++ ks)).length, mem',
        ⟨w.keys, w.next + ks.length, w.printed ++ strs⟩)) ∧
    Holds mem' buf (lineText (cs ++ ks)) ∧ (lineText (cs ++ ks)).length ≤ len ∧
    strs.flatMap Core.Vga.chars = echo cs ks

theorem TakesPiece.cons {buf len written written' : ℕ} {cs ks : List (BitVec 8)} {c : BitVec 8}
    {mem mem' : Bytes} {w : World} (strs : List (List (BitVec 8)))
    (h : TakesPiece tar buf len (cs ++ [c]) ks written' mem'
      ⟨w.keys, w.next + 1, w.printed ++ strs⟩)
    (hturn : ∀ fuel, readLoop (initrdKernel tar) buf len (fuel + 1) written mem w =
      readLoop (initrdKernel tar) buf len fuel written' mem'
        ⟨w.keys, w.next + 1, w.printed ++ strs⟩)
    (hstrs : strs.flatMap Core.Vga.chars = echoKey cs c) :
    TakesPiece tar buf len cs (c :: ks) written mem w := by
  obtain ⟨mem'', strs', hret, hholds, hle, hecho⟩ := h
  have hcs : cs ++ [c] ++ ks = cs ++ c :: ks := by rw [List.append_assoc, List.singleton_append]
  rw [hcs] at hret hholds hle
  refine ⟨mem'', strs ++ strs', fun fuel hfuel => ?_, hholds, hle, ?_⟩
  · obtain ⟨fuel, rfl⟩ := Nat.exists_eq_succ_of_ne_zero (Nat.ne_zero_of_lt hfuel)
    rw [hturn, hret fuel (Nat.lt_of_succ_lt_succ hfuel), List.length_cons, List.append_assoc,
      Nat.add_assoc, Nat.add_comm 1]
  · rw [List.flatMap_append, hstrs, hecho, echo]

/-- The buffer is full. -/
theorem takesPiece_nil {buf len written : ℕ} {cs : List (BitVec 8)} {mem : Bytes} {w : World}
    (h : Editing buf len cs written mem) (hends : Ends len cs) :
    TakesPiece tar buf len cs [] written mem w := by
  have hfull : ¬ written < len := fun hlt => h.not_ends hlt hends
  have htext : lineText cs = cancel cs := endLine_eq h.surviving
  rw [TakesPiece, List.append_nil, htext]
  refine ⟨mem, [], fun fuel hfuel => ?_, h.holds, ?_, rfl⟩
  · obtain ⟨fuel, rfl⟩ := Nat.exists_eq_succ_of_ne_zero (Nat.ne_zero_of_lt hfuel)
    rw [readLoop, if_neg hfull, h.written_eq, List.append_nil]
    rfl
  · rw [h.written_eq]
    exact h.written_le

/-- The line ends. -/
theorem takesPiece_end {buf len written : ℕ} {cs : List (BitVec 8)} {mem : Bytes} {w : World}
    (h : Editing buf len cs written mem) (hlt : written < len) {c : BitVec 8} (hend : IsEnd c)
    (hkey : c = w.keys w.next) (hc : c ≠ 0) : TakesPiece tar buf len cs [c] written mem w := by
  have hb : c ≠ 0x08 := by
    rintro rfl
    exact absurd hend (by decide)
  have htext : lineText (cs ++ [c]) = cancel cs ++ [0x0A] := by
    rw [lineText, cancel_snoc, if_neg hb, endLine_snoc hend]
  rw [TakesPiece, htext]
  refine ⟨Function.update mem (buf + written) 0x0A, [[0x0A]], fun fuel hfuel => ?_,
    h.holds.snoc h.written_eq 0x0A, ?_, ?_⟩
  · obtain ⟨fuel, rfl⟩ := Nat.exists_eq_succ_of_ne_zero (Nat.ne_zero_of_lt hfuel)
    rw [readLoop_initrd hlt hkey hc, if_neg hb, if_pos hend, List.length_append, h.written_eq]
    rfl
  · rw [List.length_append, h.written_eq]
    exact hlt
  · rw [echo, echo, echoKey, if_neg hb, if_pos hend]
    decide

/-- **The loop of `sys_read`** takes a piece of the keys. -/
theorem readLoop_piece (tar : Tar) {buf len : ℕ} {ks : List (BitVec 8)} :
    ∀ {cs : List (BitVec 8)} {written : ℕ} {mem : Bytes} {w : World},
      Editing buf len cs written mem → Piece len cs ks → ks = slice w.keys w.next ks.length →
      (∀ c ∈ ks, c ≠ 0) → TakesPiece tar buf len cs ks written mem w := by
  induction ks with
  | nil =>
      intro cs written mem w h hpiece _ _
      have hends := hpiece.ends
      rw [List.append_nil] at hends
      exact takesPiece_nil h hends
  | cons c ks ih =>
      intro cs written mem w h hpiece hslice hne
      rw [List.length_cons, slice_succ, List.cons.injEq] at hslice
      obtain ⟨hkey, hslice⟩ := hslice
      have hc := hne c List.mem_cons_self
      have hrest : ∀ c ∈ ks, c ≠ 0 := fun d hd => hne d (List.mem_cons_of_mem _ hd)
      have hnot : ¬ Ends len cs := by simpa using hpiece.shortest 0 (Nat.succ_pos _)
      have hlt : written < len := by
        refine Nat.lt_of_le_of_ne h.written_le fun e => hnot (.inr ?_)
        rw [h.written_eq, e]
      by_cases hb : c = 0x08
      · -- a backspace is echoed where there is something to take away
        have hnone : cancel cs = [] ↔ written = 0 := by
          rw [← List.length_eq_zero_iff, h.written_eq]
        have hedit := h.backspace
        rw [← hb] at hedit
        by_cases hpos : 0 < written
        · refine .cons [[0x08, 0x20, 0x08]] (ih hedit hpiece.cons hslice hrest) (fun fuel => ?_) ?_
          · rw [readLoop_initrd hlt hkey hc, if_pos hb, if_pos hpos]
          · rw [echoKey, if_pos hb, if_neg (by rw [hnone]; omega)]
            decide
        · obtain rfl := Nat.eq_zero_of_not_pos hpos
          refine .cons [] (ih hedit hpiece.cons hslice hrest) (fun fuel => ?_) ?_
          · rw [readLoop_initrd hlt hkey hc, if_pos hb, if_neg hpos, List.append_nil]
          · rw [echoKey, if_pos hb, if_pos (hnone.mpr rfl)]
            rfl
      · by_cases hend : IsEnd c
        · -- no key is taken behind it
          obtain rfl : ks = [] := by
            by_contra hks
            have hlt₁ : 1 < (c :: ks).length := Nat.succ_lt_succ (List.length_pos_iff.mpr hks)
            refine hpiece.shortest 1 hlt₁ (.inl ⟨c, ?_, hend⟩)
            rw [List.take_succ_cons, List.take_zero, List.getLast?_concat]
          exact takesPiece_end h hlt hend hkey hc
        · refine .cons [[c]] (ih (h.put hlt hb hend) hpiece.cons hslice hrest) (fun fuel => ?_) ?_
          · rw [readLoop_initrd hlt hkey hc, if_neg hb, if_neg hend]
          · rw [echoKey, if_neg hb, if_neg hend, List.flatMap_singleton, chars_singleton hc]

/-- Where the loop returns there are keys enough. -/
theorem readLoop_ends {buf len fuel : ℕ} : ∀ {cs : List (BitVec 8)} {written : ℕ} {mem : Bytes}
    {w : World} {r : ℕ × Bytes × World}, Editing buf len cs written mem → (∀ i, w.keys i ≠ 0) →
    readLoop (initrdKernel tar) buf len fuel written mem w = some r →
    ∃ n, Ends len (cs ++ slice w.keys w.next n) := by
  induction fuel with
  | zero =>
      intro cs written mem w r _ _ hret
      cases hret
  | succ fuel ih =>
      intro cs written mem w r h hkeys hret
      -- one key more than the rest of the loop
      have hmore : (∃ n, Ends len (cs ++ [w.keys w.next] ++ slice w.keys (w.next + 1) n)) →
          ∃ n, Ends len (cs ++ slice w.keys w.next n) := by
        rintro ⟨n, hn⟩
        refine ⟨n + 1, ?_⟩
        rwa [slice_succ, ← List.singleton_append, ← List.append_assoc]
      by_cases hlt : written < len
      · rw [readLoop_initrd hlt rfl (hkeys _)] at hret
        by_cases hb : w.keys w.next = 0x08
        · have hedit := h.backspace
          rw [← hb] at hedit
          rw [if_pos hb] at hret
          split at hret
          · exact hmore (ih (w := ⟨w.keys, w.next + 1, _⟩) hedit hkeys hret)
          · rename_i hzero
            obtain rfl := Nat.eq_zero_of_not_pos hzero
            exact hmore (ih (w := ⟨w.keys, w.next + 1, _⟩) hedit hkeys hret)
        · rw [if_neg hb] at hret
          split at hret
          · rename_i hend
            exact hmore ⟨0, .inl ⟨w.keys w.next, by simp [slice], hend⟩⟩
          · rename_i hend
            exact hmore (ih (w := ⟨w.keys, w.next + 1, _⟩) (h.put hlt hb hend) hkeys hret)
      · refine ⟨0, .inr ?_⟩
        have hlen := h.written_eq
        have hle := h.written_le
        rw [slice, List.range_zero, List.map_nil, List.append_nil]
        omega

/-- And so there is a piece. -/
theorem exists_piece {len : ℕ} {keys : ℕ → BitVec 8} {next : ℕ}
    (h : ∃ n, Ends len (slice keys next n)) : ∃ n, Piece len [] (slice keys next n) := by
  classical
  refine ⟨Nat.find h, Nat.find_spec h, fun m hm => ?_⟩
  rw [length_slice] at hm
  rw [take_slice keys next (Nat.le_of_lt hm)]
  exact Nat.find_min h hm

/-- There is one piece. -/
theorem Piece.unique {len : ℕ} {keys : ℕ → BitVec 8} {next n k : ℕ}
    (h : Piece len [] (slice keys next n)) (h' : Piece len [] (slice keys next k)) : n = k := by
  have hle : ∀ {n k : ℕ}, Piece len [] (slice keys next n) → Piece len [] (slice keys next k) →
      ¬ k < n := fun {n k} h h' hlt => by
    have hnot := h.shortest k (by rwa [length_slice])
    rw [take_slice keys next (Nat.le_of_lt hlt)] at hnot
    exact hnot h'.ends
  exact Nat.le_antisymm (Nat.not_lt.mp (hle h h')) (Nat.not_lt.mp (hle h' h))

/-- No key but the last of a piece ends a line. -/
theorem Piece.noEnd {len : ℕ} {ks : List (BitVec 8)} (h : Piece len [] ks) :
    ∀ c ∈ ks.dropLast, ¬ IsEnd c := by
  intro c hc hend
  obtain ⟨i, hi, rfl⟩ := List.mem_iff_getElem.mp hc
  rw [List.length_dropLast] at hi
  refine h.shortest (i + 1) (by omega) (.inl ⟨_, ?_, hend⟩)
  rw [List.nil_append, List.take_succ_eq_append_getElem (by omega), List.getLast?_concat,
    List.getElem_dropLast]

/-- **`sys_read` of the keyboard**, as the program calls it. -/
theorem sysRead_keyboard (tar : Tar) (hP : Placed t P) {ks : List (BitVec 8)}
    (hpiece : Piece 127 [] ks) (hslice : ks = slice m.world.keys m.world.next ks.length)
    (hne : ∀ c ∈ ks, c ≠ 0) :
    ∃ mem' strs, Returns (fun fuel => syscall3 t tar fuel 3 0 (BitVec.ofNat _ P.buf) 127 m)
        (BitVec.ofNat t.ptrBits (lineText ks).length,
          { m with
            mem := mem'
            world := ⟨m.world.keys, m.world.next + ks.length, m.world.printed ++ strs⟩ }) ∧
      Holds mem' P.buf (lineText ks) ∧ (lineText ks).length ≤ 127 ∧
      strs.flatMap Core.Vga.chars = echo [] ks ∧
      ∀ a, (a < P.buf ∨ P.buf + 127 ≤ a) → mem' a = m.mem a := by
  obtain ⟨mem', strs, hret, hholds, hle, hecho⟩ :=
    readLoop_piece tar (editing_init P.buf 127 m.mem) hpiece hslice hne
  rw [List.nil_append] at hret hholds hle
  have hnumber : (3 : BitVec t.ptrBits).toNat = 3 := by cases t <;> rfl
  have hfd : (0 : BitVec t.ptrBits).setWidth 32 = 0 := by cases t <;> rfl
  have hlen : (127 : BitVec t.ptrBits).toNat = 127 := by cases t <;> rfl
  have hbuf : (BitVec.ofNat t.ptrBits P.buf).toNat = P.buf :=
    Nat.mod_eq_of_lt (by have := hP.buf_end; omega)
  refine ⟨mem', strs, ⟨ks.length + 1, fun fuel hfuel => ?_⟩, hholds, hle, hecho, fun a ha => ?_⟩
  · simp only [syscall3, syscallHandler, hnumber, hfd, hbuf, hlen, sysRead, hret fuel hfuel,
      Regs.setRet]
    simp
  · have hloop := hret (ks.length + 1) (Nat.lt_succ_self _)
    exact readLoop_outside (r := (_, mem', _)) (by omega) hloop

/-! ### Listing the archive -/

/-- The entries of the root directory. -/
def tarEntries (tar : Tar) : List DirEntry :=
  tar.fileEntries.mapIdx fun k f => dirEntry (fileDirent k f)

theorem initrdKernel_yields (htar : tar = tarTables tar.fileEntries) (w : World) :
    Yields (initrdKernel tar).toDirDriver rootNode (tarEntries tar) (· = w) := by
  rintro w' rfl
  have hdir : rootNode.flags &&& 2 ≠ 0 := by decide
  refine ⟨hdir, fun index w => ((tarReaddir tar index).map dirEntry, w), rfl,
    fun index => ⟨?_, rfl⟩⟩
  dsimp only
  have hdirents : tar.tarDirents = tar.fileEntries.mapIdx fileDirent := by
    conv_lhs => rw [htar]
    rfl
  rw [tarReaddir, tarEntries, List.getElem?_mapIdx]
  split
  · rename_i hend
    have hend' : tar.fileEntries.length ≤ index.toNat := hend
    rw [List.getElem?_eq_none hend']
    rfl
  · rw [hdirents, List.getElem?_mapIdx, Option.map_map]
    rfl

/-- The machine after the names of `es` were printed, a line each. -/
def sayNames (es : List DirEntry) (m : UserMachine) : UserMachine :=
  es.foldl (fun m e => say (ascii "\n") (say (e.name.map (·.1)) m)) m

theorem sayNames_frame (es : List DirEntry) (m : UserMachine) :
    (sayNames es m).mem = m.mem ∧ (sayNames es m).vfs = m.vfs ∧
      (sayNames es m).world.keys = m.world.keys ∧ (sayNames es m).world.next = m.world.next := by
  induction es generalizing m with
  | nil => exact ⟨rfl, rfl, rfl, rfl⟩
  | cons e es ih => exact ih _

theorem text_sayNames (es : List DirEntry) (m : UserMachine) :
    (sayNames es m).world.text =
      m.world.text ++ es.flatMap fun e => e.name.map (·.1) ++ ascii "\n" := by
  induction es generalizing m with
  | nil => exact (List.append_nil _).symm
  | cons e es ih =>
      have hname : ∀ b ∈ e.name.map (·.1), b ≠ 0 := fun b hb => by
        obtain ⟨c, -, rfl⟩ := List.mem_map.mp hb
        exact c.2
      rw [List.flatMap_cons, ← List.append_assoc, ← List.append_assoc, ← text_say hname,
        ← text_say (by decide)]
      exact ih _

/-- **The loop of `ls`** prints the names of the records that lie in the buffer. -/
theorem lsEntries_returns (tar : Tar) (hP : Placed t P) {nread : ℕ} (hread : nread ≤ 1024)
    {es : List DirEntry} (bpos : ℕ) (hlit : Loaded P m.mem)
    (hlaid : Laid t m.mem (P.dbuf + bpos) es) (hend : nread = bpos + total t es) :
    ∃ enough, ∀ fuel ≥ enough, ∀ n > es.length,
      lsEntries t tar P fuel nread n bpos m = some (sayNames es m) := by
  induction es generalizing bpos m with
  | nil =>
      refine ⟨0, fun fuel _ n hn => ?_⟩
      obtain ⟨n, rfl⟩ := Nat.exists_eq_succ_of_ne_zero (Nat.ne_zero_of_lt hn)
      rw [total_nil, Nat.add_zero] at hend
      rw [lsEntries, if_neg (by omega)]
      rfl
  | cons e es ih =>
      obtain ⟨hrecord, hlaid⟩ := hlaid
      have hsize := (recordSize_bounds t e).1
      have hdbuf := hP.dbuf_end
      have hlen := e.name_lt
      rw [total_cons] at hend
      have hname : ∀ b ∈ e.name.map (·.1), b ≠ 0 := fun b hb => by
        obtain ⟨c, -, rfl⟩ := List.mem_map.mp hb
        exact c.2
      obtain ⟨n₁, h₁⟩ := writeString_returns (t := t) tar hname hrecord.name (by omega)
        (by rw [List.length_map]; omega)
      obtain ⟨n₂, h₂⟩ := writeLit_returns (t := t) (m := say (e.name.map (·.1)) m) tar hP
        hlit (s := "\n") (by decide)
      obtain ⟨n₃, h₃⟩ := ih (m := say (ascii "\n") (say (e.name.map (·.1)) m))
        (bpos + recordSize t e) hlit (by rwa [← Nat.add_assoc]) (by omega)
      refine ⟨n₁ + n₂ + n₃, fun fuel hfuel n hn => ?_⟩
      obtain ⟨n, rfl⟩ := Nat.exists_eq_succ_of_ne_zero (Nat.ne_zero_of_lt hn)
      have h₁' := h₁ fuel (by omega)
      have h₂' := h₂ fuel (by omega)
      dsimp only at h₁' h₂'
      rw [lsEntries, if_pos (by omega)]
      dsimp only
      rw [h₁', Option.bind_some, h₂', Option.bind_some]
      have hmem : (say (ascii "\n") (say (e.name.map (·.1)) m)).mem = m.mem := rfl
      rw [hmem, hrecord.reclen]
      exact h₃ fuel (by omega) n (Nat.lt_of_succ_lt_succ hn)

/-- The names `ls` has room for. -/
def listed (t : Target) (tar : Tar) : List DirEntry := leading t 1024 (tarEntries tar)

/-- **The branch of `ls`** prints the names of the archive's members, in order. -/
theorem ls_returns (hP : Placed t P) (htar : tar = tarTables tar.fileEntries)
    (hroot : m.vfs.rootNode = some rootNode) (hlit : Loaded P m.mem) :
    ∃ mem', OnlyBuffers P m.mem mem' ∧
      Returns (fun fuel => ls t tar P fuel m) (sayNames (listed t tar) { m with mem := mem' }) := by
  have hcount : (1024 : BitVec 32).toNat = 1024 := rfl
  have hless : min (1024 : BitVec 32).toNat (total t (tarEntries tar)) < 2 ^ 31 :=
    min_lt_of_left_lt (by rw [hcount]; decide)
  obtain ⟨mem', w', hret, rfl, hlaid, hout⟩ := sysGetdents_spec (t := t)
    (initrdKernel_yields htar m.world) hroot hless 0 P.dbuf m.mem rfl
  have hle := total_leading_le t (1024 : BitVec 32).toNat (tarEntries tar)
  rw [hcount] at hlaid hout hle hret
  have honly : OnlyBuffers P m.mem mem' := fun a _ hd => hout a (by omega)
  have hnumber : (141 : BitVec t.ptrBits).toNat = 141 := by cases t <;> rfl
  have hbuf : (BitVec.ofNat t.ptrBits P.dbuf).toNat = P.dbuf :=
    Nat.mod_eq_of_lt (by have := hP.dbuf_end; omega)
  have hsize : (1024 : BitVec t.ptrBits).setWidth 32 = 1024 := by cases t <;> rfl
  have hzero : (0 : BitVec t.ptrBits).setWidth 32 = 0 := by cases t <;> rfl
  have hword : ((BitVec.ofInt t.ptrBits (total t (leading t 1024 (tarEntries tar)) : ℕ)).setWidth
      32).toInt = (total t (leading t 1024 (tarEntries tar)) : ℕ) := by
    rw [BitVec.ofInt_natCast]
    exact toInt_word t (by omega)
  obtain ⟨n₁, h₁⟩ := hret
  obtain ⟨n₂, h₂⟩ := lsEntries_returns (t := t) (m := { m with mem := mem' }) tar hP hle 0
    (hlit.of_onlyBuffers hP honly) hlaid (Nat.zero_add _).symm
  refine ⟨mem', honly, n₁ + n₂ + (listed t tar).length + 1, fun fuel hfuel => ?_⟩
  have h₁' := h₁ fuel (by omega)
  dsimp only at h₁' ⊢
  simp only [ls, syscall3, syscallHandler, hnumber, hbuf, hsize, hzero, h₁', Option.map_some,
    Option.bind_some, Regs.setRet, hword]
  exact h₂ fuel (by omega) fuel (by rw [← listed]; omega)

end ZeptoOS.User
