import ZeptoOS.Core.Serial
import ZeptoOS.User.Init

/-!
# User — Session

What the program of `user/init.c` prints.  The keys are cut into pieces, each the shortest that is
enough for a read of 127 characters, and `turnText` is all that is printed for a piece: the prompt,
the echo and the answer to the command.  `session_transcript` says that the program, over
`syscall_handler` and the tables of the boot archive, prints just that, for any keys and on both
targets.

This is the C of the program and of the kernel behind its system calls.  Interrupts between the
calls are left out, and of i386 the segment registers too: there the program has `ds` null after its
first return from the kernel, so that what it prints is not what a user of that target gets to see
(`I386/Segments`).
-/

namespace ZeptoOS.User
open Lib Fs Syscall

/-! ### The session -/

/-- The command of a piece: its line without the last character. -/
def command (ks : List (BitVec 8)) : List (BitVec 8) := (lineText ks).dropLast

/-- What is printed for a command. -/
def response (listing cmd : List (BitVec 8)) : List (BitVec 8) :=
  if cmd = ascii "help" then ascii "Available commands: help, ls, hello, clear, exit\n"
  else if cmd = ascii "ls" then listing
  else if cmd = ascii "hello" then ascii "Hello World With File System\n"
  else if cmd = ascii "clear" then ascii "\x1b[2J\x1b[H"
  else if cmd = ascii "exit" then ascii "Goodbye!\n"
  else if cmd ≠ [] then ascii "Unknown command: " ++ cmd ++ ascii "\n"
  else []

/-- The names of the members of the archive, as far as `ls` has room for them. -/
def listing (t : Target) (tar : Tar) : List (BitVec 8) :=
  (listed t tar).flatMap fun e => e.name.map (·.1) ++ ascii "\n"

/-- What is printed for a piece of the keys. -/
def turnText (listing ks : List (BitVec 8)) : List (BitVec 8) :=
  ascii "zepto> " ++ echo [] ks ++ response listing (command ks)

/-! ### What a part of the program did -/

variable {t : Target} {tar : Tar} {P : InitImage} {m m₁ m' : UserMachine}

/-- From `m` to `m'` memory changed in the buffers at most, no key was read, and `text` was
printed. -/
structure Printed (P : InitImage) (m m' : UserMachine) (text : List (BitVec 8)) : Prop where
  vfs : m'.vfs = m.vfs
  mem : OnlyBuffers P m.mem m'.mem
  keys : m'.world.keys = m.world.keys
  next : m'.world.next = m.world.next
  text : m'.world.text = m.world.text ++ text

theorem Printed.refl (P : InitImage) (m : UserMachine) : Printed P m m [] :=
  ⟨rfl, fun _ _ _ => rfl, rfl, rfl, (List.append_nil _).symm⟩

theorem Printed.trans {text text' : List (BitVec 8)} (h : Printed P m m₁ text)
    (h' : Printed P m₁ m' text') : Printed P m m' (text ++ text') where
  vfs := h'.vfs.trans h.vfs
  mem := h.mem.trans h'.mem
  keys := h'.keys.trans h.keys
  next := h'.next.trans h.next
  text := by rw [h'.text, h.text, List.append_assoc]

theorem printed_say (P : InitImage) (m : UserMachine) {s : List (BitVec 8)}
    (hs : ∀ b ∈ s, b ≠ 0) : Printed P m (say s m) s :=
  ⟨rfl, fun _ _ _ => rfl, rfl, rfl, text_say hs⟩

theorem printed_listing (P : InitImage) (m : UserMachine) (es : List DirEntry) :
    Printed P m (sayNames es m) (es.flatMap fun e => e.name.map (·.1) ++ ascii "\n") := by
  obtain ⟨hmem, hvfs, hkeys, hnext⟩ := sayNames_frame es m
  exact ⟨hvfs, fun _ _ _ => by rw [hmem], hkeys, hnext, text_sayNames es m⟩

/-- What a turn is run with. -/
structure Runnable (t : Target) (tar : Tar) (P : InitImage) (m : UserMachine) : Prop where
  placed : Placed t P
  tables : tar = tarTables tar.fileEntries
  root : m.vfs.rootNode = some rootNode
  loaded : Loaded P m.mem

theorem Runnable.of_printed {text : List (BitVec 8)} (h : Runnable t tar P m)
    (hm : Printed P m m' text) : Runnable t tar P m' :=
  ⟨h.placed, h.tables, hm.vfs ▸ h.root, h.loaded.of_onlyBuffers h.placed hm.mem⟩

/-! ### The commands -/

/-- The machine goes on, or does not, and the text was printed. -/
def Answers (P : InitImage) (m : UserMachine) (f : ℕ → Option (Bool × UserMachine))
    (running : Bool) (text : List (BitVec 8)) : Prop :=
  ∃ m', Returns f (running, m') ∧ Printed P m m' text

/-- A literal is the answer. -/
theorem answers_lit (h : Runnable t tar P m) {s : String} (hs : s ∈ literals) (running : Bool) :
    Answers P m (fun fuel => (writeLit t tar P fuel s m).map (running, ·)) running (ascii s) :=
  ⟨_, (writeLit_returns tar h.placed h.loaded hs).map _, printed_say P m (ascii_ne s hs)⟩

/-- The names of the members are the answer. -/
theorem answers_ls (h : Runnable t tar P m) :
    Answers P m (fun fuel => (ls t tar P fuel m).map (true, ·)) true (listing t tar) := by
  obtain ⟨mem', honly, hret⟩ := ls_returns h.placed h.tables h.root h.loaded
  have hcall : Printed P m { m with mem := mem' } [] :=
    ⟨rfl, honly, rfl, rfl, (List.append_nil _).symm⟩
  exact ⟨_, hret.map _, hcall.trans (printed_listing P _ (listed t tar))⟩

section Command

variable {cmd : List (BitVec 8)} (hcmd : ∀ b ∈ cmd, b ≠ 0) (hbuf : Holds m.mem P.buf (cmd ++ [0]))

include hcmd hbuf

/-- A command that is not known is the answer. -/
theorem answers_unknown (h : Runnable t tar P m) (hlen : cmd.length < 128) :
    Answers P m
      (fun fuel => if m.mem P.buf ≠ 0 then
          (writeLit t tar P fuel "Unknown command: " m).bind fun m =>
            (writeStringAt t tar fuel P.buf m).bind fun m =>
              (writeLit t tar P fuel "\n" m).map (true, ·)
        else some (true, m)) true
      (if cmd ≠ [] then ascii "Unknown command: " ++ cmd ++ ascii "\n" else []) := by
  have hempty : m.mem P.buf ≠ 0 ↔ cmd ≠ [] := by
    cases cmd with
    | nil => exact iff_of_false (not_not.mpr (holds_cons.mp hbuf).1) (not_not.mpr rfl)
    | cons c cmd =>
        refine iff_of_true ?_ (List.cons_ne_nil c cmd)
        rw [(holds_cons.mp hbuf).1]
        exact hcmd c List.mem_cons_self
  simp only [hempty]
  by_cases hne : cmd ≠ []
  · simp only [if_pos hne]
    have hend := h.placed.buf_end
    have hprefix : "Unknown command: " ∈ literals := by decide
    have hnl : "\n" ∈ literals := by decide
    have h₁ := printed_say P m (ascii_ne _ hprefix)
    have h₂ := printed_say P (say (ascii "Unknown command: ") m) hcmd
    have hret₁ := writeLit_returns tar h.placed h.loaded hprefix
    have hret₂ := writeString_returns (t := t) tar
      (m := say (ascii "Unknown command: ") m) hcmd hbuf (by omega) (by omega)
    obtain ⟨m', hret₃, h₃⟩ := answers_lit ((h.of_printed h₁).of_printed h₂) hnl true
    exact ⟨m', hret₁.bind (hret₂.bind hret₃), (h₁.trans h₂).trans h₃⟩
  · simp only [if_neg hne]
    exact ⟨m, .pure _, .refl P m⟩

/-- One of the branches. -/
theorem Answers.ifCommand (h : Runnable t tar P m) {name : String} (hname : name ∈ literals)
    {yes no : ℕ → Option (Bool × UserMachine)} {running running' : Bool}
    {text text' : List (BitVec 8)} (hyes : Answers P m yes running text)
    (hno : Answers P m no running' text') :
    Answers P m (fun fuel => User.ifCommand P fuel name m (yes fuel) (no fuel))
      (if cmd = ascii name then running else running')
      (if cmd = ascii name then text else text') := by
  obtain ⟨c, hc, hiff⟩ := stringCompareAt_returns hcmd (ascii_ne name hname) hbuf
    (h.loaded name hname)
  have hbranch : Answers P m (fun fuel => if c = 0 then yes fuel else no fuel)
      (if cmd = ascii name then running else running')
      (if cmd = ascii name then text else text') := by
    simp only [hiff]
    split
    · exact hyes
    · exact hno
  obtain ⟨m', hret, hprinted⟩ := hbranch
  exact ⟨m', hc.bind (g := fun c fuel => if c = 0 then yes fuel else no fuel) hret, hprinted⟩

/-- **The branches on the command.** -/
theorem answers_command (h : Runnable t tar P m) (hlen : cmd.length < 128) :
    Answers P m (fun fuel => runCommandAt t tar P fuel m) (decide (cmd ≠ ascii "exit"))
      (response (listing t tar) cmd) := by
  have hrunning : decide (cmd ≠ ascii "exit") =
      if cmd = ascii "help" then true else if cmd = ascii "ls" then true
      else if cmd = ascii "hello" then true else if cmd = ascii "clear" then true
      else if cmd = ascii "exit" then false else true := by
    by_cases hexit : cmd = ascii "exit"
    · rw [hexit]
      decide +kernel
    · simp only [hexit, ne_eq, not_false_iff, decide_true, if_false, ite_self]
  rw [hrunning]
  exact .ifCommand hcmd hbuf h (by decide) (answers_lit h (by decide) true) <|
    .ifCommand hcmd hbuf h (by decide) (answers_ls h) <|
    .ifCommand hcmd hbuf h (by decide) (answers_lit h (by decide) true) <|
    .ifCommand hcmd hbuf h (by decide) (answers_lit h (by decide) true) <|
    .ifCommand hcmd hbuf h (by decide) (answers_lit h (by decide) false) <|
    answers_unknown hcmd hbuf h hlen

end Command

/-! ### The line of a piece -/

/-- The line of a piece is the command and one character more. -/
theorem lineText_piece {ks : List (BitVec 8)} (h : Piece 127 [] ks) (hne : ∀ c ∈ ks, c ≠ 0) :
    ∃ x, lineText ks = command ks ++ [x] ∧ ∀ c ∈ command ks, c ≠ 0 ∧ ¬ IsEnd c := by
  have hline : ∀ (line : List (BitVec 8)) (x : BitVec 8), lineText ks = line ++ [x] →
      (∀ c ∈ line, c ∈ ks ∧ ¬ IsEnd c) →
      ∃ x, lineText ks = command ks ++ [x] ∧ ∀ c ∈ command ks, c ≠ 0 ∧ ¬ IsEnd c := by
    intro line x htext hall
    rw [command, htext, List.dropLast_concat]
    exact ⟨x, rfl, fun c hc => ⟨hne c (hall c hc).1, (hall c hc).2⟩⟩
  cases ks using List.reverseRecOn with
  | nil =>
      rcases h.ends with ⟨c, hlast, -⟩ | hlen
      · cases hlast
      · cases hlen
  | append_singleton cs c =>
      have hnoEnd := h.noEnd
      rw [List.dropLast_concat] at hnoEnd
      have hall : ∀ d ∈ cancel cs, d ∈ cs ++ [c] ∧ ¬ IsEnd d := fun d hd =>
        ⟨List.mem_append_left _ (mem_of_mem_cancel hd), hnoEnd d (mem_of_mem_cancel hd)⟩
      by_cases hb : c = 0x08
      · -- 127 characters survive, none of which ends a line
        have hcancel : cancel (cs ++ [c]) = (cancel cs).dropLast := by
          rw [cancel_snoc, if_pos hb, eraseLast_eq fun d hd => (hall d hd).2]
        have hsurvive : ∀ d ∈ (cancel cs).dropLast, d ∈ cs ++ [c] ∧ ¬ IsEnd d :=
          fun d hd => hall d (List.mem_of_mem_dropLast hd)
        have htext : lineText (cs ++ [c]) = (cancel cs).dropLast := by
          rw [lineText, hcancel, endLine_eq fun d hd => (hsurvive d hd).2]
        have hpos : (cancel cs).dropLast ≠ [] := by
          rcases h.ends with ⟨d, hlast, hend⟩ | hlen
          · rw [List.nil_append, List.getLast?_concat, Option.some.injEq] at hlast
            subst hlast hb
            exact absurd hend (by decide)
          · rw [List.nil_append, hcancel] at hlen
            intro e
            rw [e] at hlen
            cases hlen
        refine hline _ _ (htext.trans (List.dropLast_append_getLast hpos).symm) fun d hd => ?_
        exact hsurvive d (List.mem_of_mem_dropLast hd)
      · have hcancel : cancel (cs ++ [c]) = cancel cs ++ [c] := by rw [cancel_snoc, if_neg hb]
        by_cases hend : IsEnd c
        · refine hline (cancel cs) 0x0A ?_ hall
          rw [lineText, hcancel, endLine_snoc hend]
        · refine hline (cancel cs) c ?_ hall
          rw [lineText, hcancel, endLine_eq]
          intro d hd
          rcases List.mem_append.mp hd with hd | hd
          · exact (hall d hd).2
          · rwa [List.mem_singleton.mp hd]

/-- The last character of the line is overwritten, and no other. -/
theorem cutLine_holds {mem : Bytes} {cmd : List (BitVec 8)} {x : BitVec 8}
    (h : Holds mem P.buf (cmd ++ [x])) (hcr : ∀ c ∈ cmd, c ≠ 0x0D) :
    Holds (cutLine P (cmd.length + 1) mem) P.buf (cmd ++ [0]) ∧
      ∀ a, a ≠ P.buf + cmd.length → cutLine P (cmd.length + 1) mem a = mem a := by
  have hcmd := (holds_append.mp h).1
  have hnot : ¬ (1 < cmd.length + 1 ∧
      Function.update mem (P.buf + cmd.length) 0 (P.buf + (cmd.length + 1 - 2)) = 0x0D) := by
    rintro ⟨hlt, he⟩
    have hidx : cmd.length - 1 < cmd.length := by omega
    rw [Function.update_of_ne (by omega), show cmd.length + 1 - 2 = cmd.length - 1 by omega,
      hcmd _ _ (List.getElem?_eq_getElem hidx)] at he
    exact hcr _ (List.getElem_mem hidx) he
  have hcut : cutLine P (cmd.length + 1) mem = Function.update mem (P.buf + cmd.length) 0 :=
    if_neg hnot
  rw [hcut]
  exact ⟨hcmd.snoc rfl 0, fun a ha => Function.update_of_ne ha _ _⟩

/-! ### A turn -/

/-- A turn from `m` to `m'` printed what is due for the keys `ks`, and read these. -/
structure Turned (t : Target) (tar : Tar) (P : InitImage) (m m' : UserMachine)
    (ks : List (BitVec 8)) : Prop where
  runnable : Runnable t tar P m'
  keys : m'.world.keys = m.world.keys
  next : m'.world.next = m.world.next + ks.length
  text : m'.world.text = m.world.text ++ turnText (listing t tar) ks

/-- **A turn of the loop** on a piece of the keys. -/
theorem initTurn_returns (h : Runnable t tar P m) {ks : List (BitVec 8)} (hpiece : Piece 127 [] ks)
    (hslice : ks = slice m.world.keys m.world.next ks.length) (hne : ∀ c ∈ ks, c ≠ 0) :
    ∃ m', Returns (fun fuel => initTurn t tar P fuel m)
      (decide (command ks ≠ ascii "exit"), m') ∧ Turned t tar P m m' ks := by
  have hprompt : "zepto> " ∈ literals := by decide
  have hsay := printed_say P m (ascii_ne _ hprompt)
  obtain ⟨mem', strs, hread, hholds, hle, hecho, hout⟩ :=
    sysRead_keyboard (t := t) tar (m := say (ascii "zepto> ") m) h.placed hpiece hslice hne
  obtain ⟨x, hline, hcmd⟩ := lineText_piece hpiece hne
  have hlen : (lineText ks).length = (command ks).length + 1 := by
    rw [hline, List.length_append, List.length_singleton]
  rw [hline] at hholds
  obtain ⟨hcut, hrest⟩ := cutLine_holds hholds fun c hc hcr => (hcmd c hc).2 (.inr hcr)
  -- the machine the command is run in
  let m₁ : UserMachine :=
    { mem := cutLine P (lineText ks).length mem'
      vfs := m.vfs
      world := ⟨m.world.keys, m.world.next + ks.length,
        (say (ascii "zepto> ") m).world.printed ++ strs⟩ }
  have honly : OnlyBuffers P m.mem m₁.mem := fun a hb hd => by
    have hcutOff : cutLine P (lineText ks).length mem' a = mem' a := by
      rw [hlen]
      exact hrest a (by omega)
    exact hcutOff.trans (hout a (by omega))
  have hrun : Runnable t tar P m₁ :=
    ⟨h.placed, h.tables, h.root, h.loaded.of_onlyBuffers h.placed honly⟩
  have hbuf : Holds m₁.mem P.buf (command ks ++ [0]) := by
    change Holds (cutLine P (lineText ks).length mem') _ _
    rwa [hlen]
  obtain ⟨m', hret, hprinted⟩ :=
    answers_command (fun c hc => (hcmd c hc).1) hbuf hrun (by omega)
  have hword := toInt_word t (n := (lineText ks).length) (by omega)
  refine ⟨m', ?_, hrun.of_printed hprinted, hprinted.keys, hprinted.next, ?_⟩
  · refine (writeLit_returns tar h.placed h.loaded hprompt).bind (hread.bind
      (g := fun r fuel => if (r.1.setWidth 32).toInt ≤ 0 then some (true, r.2)
        else runCommandAt t tar P fuel
          { r.2 with mem := cutLine P (r.1.setWidth 32).toInt.toNat r.2.mem }) ?_)
    dsimp only
    simp only [hword, Int.toNat_natCast]
    rw [hlen]
    simp only [if_neg (show ¬ (((command ks).length + 1 : ℕ) : ℤ) ≤ 0 by omega)]
    rw [← hlen]
    exact hret
  · have htext : m₁.world.text = m.world.text ++ ascii "zepto> " ++ echo [] ks := by
      rw [World.text, List.flatMap_append, hecho]
      exact congrArg (· ++ _) hsay.text
    rw [hprinted.text, htext, turnText, List.append_assoc, List.append_assoc, List.append_assoc]

/-- A turn that returns had a piece to read. -/
theorem initTurn_piece (h : Runnable t tar P m) (hkeys : ∀ i, m.world.keys i ≠ 0)
    {r : Bool × UserMachine} (hret : Returns (fun fuel => initTurn t tar P fuel m) r) :
    ∃ n, Piece 127 [] (slice m.world.keys m.world.next n) := by
  obtain ⟨n₁, h₁⟩ := writeLit_returns (t := t) tar h.placed h.loaded (s := "zepto> ")
    (by decide)
  obtain ⟨n₂, h₂⟩ := hret
  have hprompt := h₁ (max n₁ n₂) (Nat.le_max_left n₁ n₂)
  have hturn := h₂ (max n₁ n₂) (Nat.le_max_right n₁ n₂)
  dsimp only at hprompt hturn
  rw [initTurn, hprompt, Option.bind_some] at hturn
  obtain ⟨⟨ret, m₁⟩, hcall, -⟩ := Option.bind_eq_some_iff.mp hturn
  obtain ⟨⟨regs, m₂⟩, hhandler, -⟩ := Option.map_eq_some_iff.mp hcall
  have hnumber : (3 : BitVec t.ptrBits).toNat = 3 := by cases t <;> rfl
  have hfd : (0 : BitVec t.ptrBits).setWidth 32 = 0 := by cases t <;> rfl
  have hlen : (127 : BitVec t.ptrBits).toNat = 127 := by cases t <;> rfl
  simp only [syscallHandler, hnumber, hfd, hlen, sysRead, ne_eq, not_true_eq_false, if_false,
    Option.map_map] at hhandler
  obtain ⟨r, hloop, -⟩ := Option.map_eq_some_iff.mp hhandler
  exact exists_piece (readLoop_ends (w := (say (ascii "zepto> ") m).world) (editing_init _ 127 _)
    hkeys hloop)

/-- **Every turn** reads a piece of the keys, and goes on unless the command was `exit`. -/
theorem InitStep.turned {s s' : InitState} {ks : List (BitVec 8)} (h : InitStep t tar P s ks s')
    (hrun : Runnable t tar P s.machine) (hkeys : ∀ i, s.machine.world.keys i ≠ 0) :
    Piece 127 [] ks ∧ ks = slice s.machine.world.keys s.machine.world.next ks.length ∧
      (s'.running = true ↔ command ks ≠ ascii "exit") ∧
      Turned t tar P s.machine s'.machine ks := by
  obtain ⟨-, hret, n, hnext, hks⟩ := h
  obtain ⟨k, hpiece⟩ := initTurn_piece hrun hkeys hret
  have hne : ∀ c ∈ slice s.machine.world.keys s.machine.world.next k, c ≠ 0 := by
    intro c hc
    obtain ⟨i, -, rfl⟩ := List.mem_map.mp hc
    exact hkeys _
  obtain ⟨m', hret', hturned⟩ := initTurn_returns hrun hpiece (by rw [length_slice]) hne
  have hsame := hret.unique hret'
  rw [Prod.mk.injEq] at hsame
  obtain ⟨hrunning, hmachine⟩ := hsame
  have hk : k = n := by
    have hturn := hturned.next
    rw [← hmachine, hnext, length_slice] at hturn
    omega
  subst hk hks
  refine ⟨hpiece, by rw [length_slice], ?_, hmachine ▸ hturned⟩
  rw [hrunning, decide_eq_true_iff]

/-- **Where a piece is left to read, there is a turn.** -/
theorem InitStep.progress {s : InitState} (hrunning : s.running = true)
    (hrun : Runnable t tar P s.machine) (hkeys : ∀ i, s.machine.world.keys i ≠ 0) {n : ℕ}
    (hends : Ends 127 (slice s.machine.world.keys s.machine.world.next n)) :
    ∃ ks s', InitStep t tar P s ks s' := by
  obtain ⟨k, hpiece⟩ := exists_piece ⟨n, hends⟩
  have hne : ∀ c ∈ slice s.machine.world.keys s.machine.world.next k, c ≠ 0 := by
    intro c hc
    obtain ⟨i, -, rfl⟩ := List.mem_map.mp hc
    exact hkeys _
  obtain ⟨m', hret, hturned⟩ := initTurn_returns hrun hpiece (by rw [length_slice]) hne
  have hnext := hturned.next
  rw [length_slice] at hnext
  exact ⟨_, ⟨_, m'⟩, hrunning, hret, k, hnext, rfl⟩

/-! ### Whole runs -/

/-- The program after the pieces were read, from `m`. -/
structure InSession (t : Target) (tar : Tar) (P : InitImage) (m : UserMachine)
    (pieces : List (List (BitVec 8))) (s : InitState) : Prop where
  runnable : Runnable t tar P s.machine
  keys : s.machine.world.keys = m.world.keys
  next : s.machine.world.next = m.world.next + pieces.flatten.length
  read : pieces.flatten = slice m.world.keys m.world.next pieces.flatten.length
  each : ∀ ks ∈ pieces, Piece 127 [] ks
  running : s.running = true ↔ ∀ ks ∈ pieces, command ks ≠ ascii "exit"
  text : s.machine.world.text = m.world.text ++ ascii "ZeptoOS Shell v1.0\n" ++
    pieces.flatMap (turnText (listing t tar))

theorem inSession_start (h : Runnable t tar P m) :
    InSession t tar P m [] ⟨true, say (ascii "ZeptoOS Shell v1.0\n") m⟩ := by
  have hsay := printed_say P m (ascii_ne "ZeptoOS Shell v1.0\n" (by decide))
  refine ⟨h.of_printed hsay, rfl, rfl, rfl, by simp, by simp, ?_⟩
  rw [List.flatMap_nil, List.append_nil, hsay.text]

/-- **One more turn.** -/
theorem InSession.step {pieces : List (List (BitVec 8))} {s s' : InitState}
    {ks : List (BitVec 8)} (hkeys : ∀ i, m.world.keys i ≠ 0) (h : InSession t tar P m pieces s)
    (hstep : InitStep t tar P s ks s') : InSession t tar P m (pieces ++ [ks]) s' := by
  obtain ⟨hpiece, hslice, hrunning, hturned⟩ :=
    hstep.turned h.runnable fun i => h.keys ▸ hkeys i
  have hflatten : (pieces ++ [ks]).flatten = pieces.flatten ++ ks := by simp
  have hlen : (pieces ++ [ks]).flatten.length = pieces.flatten.length + ks.length := by
    rw [hflatten, List.length_append]
  refine ⟨hturned.runnable, hturned.keys.trans h.keys, ?_, ?_, ?_, ?_, ?_⟩
  · rw [hturned.next, h.next, hlen, Nat.add_assoc]
  · rw [hlen, hflatten, slice_append, ← h.read, ← h.next, ← h.keys, ← hslice]
  · intro ls hls
    rcases List.mem_append.mp hls with hls | hls
    · exact h.each ls hls
    · exact List.mem_singleton.mp hls ▸ hpiece
  · have hbefore := h.running.mp hstep.1
    rw [hrunning, List.forall_mem_append, and_iff_right hbefore, List.forall_mem_singleton]
  · rw [hturned.text, h.text, List.flatMap_append, List.flatMap_singleton, List.append_assoc]

/-- Where the records of all members have room, `ls` lists all. -/
theorem listing_all {mem : ℕ → Byte} {fuel : ℕ} {address : BitVec 32}
    (hparse : tarParse mem fuel address = some tar) (hroom : total t (tarEntries tar) ≤ 1024) :
    listing t tar = tar.fileEntries.flatMap fun f => f.name ++ ascii "\n" := by
  obtain ⟨-, -, hnames⟩ := tarParse_entries hparse
  have hlines : (tarEntries tar).map (fun e => e.name.map (·.1) ++ ascii "\n") =
      tar.fileEntries.map fun f => f.name ++ ascii "\n" := by
    refine List.ext_getElem? fun k => ?_
    rw [List.getElem?_map, tarEntries, List.getElem?_mapIdx, List.getElem?_map, Option.map_map]
    refine Option.map_congr fun f hf => ?_
    obtain ⟨hlen, hchars⟩ := hnames f (List.mem_of_getElem? hf)
    rw [Function.comp_apply, dirEntry_name hlen hchars]
  rw [listing, listed, leading_all hroom, List.flatMap_def, hlines, List.flatMap_def]

/-- **The transcript of a session**, as far as the C code goes.  Over the tables of a parsed
archive, and for any keys: the program gets to its loop; each turn of the loop reads the shortest
piece of the keys that is enough for it, as long as there is one, until a command is `exit`; and
after any number of turns the text printed is the banner and, for each piece, the prompt, the echo
and the answer, where the answer to `ls` is the names of the members.  The screen shows the layout
of that text, and the serial log reads back as it. -/
theorem session_transcript {mem : ℕ → Byte} {fuel : ℕ} {address : BitVec 32}
    (hparse : tarParse mem fuel address = some tar) (hP : Placed t P)
    (hroot : m.vfs.rootNode = some rootNode) (hlit : Loaded P m.mem)
    (hkeys : ∀ i, m.world.keys i ≠ 0) :
    (total t (tarEntries tar) ≤ 1024 →
      listing t tar = tar.fileEntries.flatMap fun f => f.name ++ ascii "\n") ∧
    ∃ s₀, InitStart t tar P m s₀ ∧ ∀ pieces s, Run (InitStep t tar P) s₀ pieces s →
      s.machine.world.text = m.world.text ++ ascii "ZeptoOS Shell v1.0\n" ++
        pieces.flatMap (turnText (listing t tar)) ∧
      (∀ ks ∈ pieces, Piece 127 [] ks) ∧
      pieces.flatten = slice m.world.keys m.world.next pieces.flatten.length ∧
      s.machine.world.next = m.world.next + pieces.flatten.length ∧
      (s.running = true ↔ ∀ ks ∈ pieces, command ks ≠ ascii "exit") ∧
      ((∃ ks s', InitStep t tar P s ks s') ↔
        s.running = true ∧ ∃ n, Ends 127 (slice m.world.keys s.machine.world.next n)) ∧
      ∀ c : Core.Console, c.uart.Runs → ∃ c' : Core.Console,
        Returns (fun fuel => Core.Console.ttyWrites fuel s.machine.world.printed c.init) c' ∧
        Core.Vga.Shows (Core.Vga.layout s.machine.world.text) c'.vga ∧
        Core.readBack (Core.logSince c.init.uart c'.uart) = s.machine.world.text := by
  have hrun : Runnable t tar P m := ⟨hP, (tarParse_entries hparse).1, hroot, hlit⟩
  have hbanner : "ZeptoOS Shell v1.0\n" ∈ literals := by decide
  refine ⟨listing_all hparse, ⟨true, say (ascii "ZeptoOS Shell v1.0\n") m⟩,
    ⟨rfl, writeLit_returns tar hP hlit hbanner⟩, fun pieces s h => ?_⟩
  have hsession : InSession t tar P m pieces s :=
    h.inv_history (I := InSession t tar P m) (fun h hstep => h.step hkeys hstep)
      (inSession_start hrun)
  have hkeys' : ∀ i, s.machine.world.keys i ≠ 0 := fun i => hsession.keys ▸ hkeys i
  refine ⟨hsession.text, hsession.each, hsession.read, hsession.next, hsession.running,
    ⟨?_, ?_⟩, fun c hc => ?_⟩
  · rintro ⟨ks, s', hstep⟩
    obtain ⟨hpiece, hslice, -⟩ := hstep.turned hsession.runnable hkeys'
    refine ⟨hstep.1, ks.length, ?_⟩
    rw [← hsession.keys, ← hslice]
    exact hpiece.ends
  · rintro ⟨hrunning, n, hends⟩
    rw [← hsession.keys] at hends
    exact InitStep.progress hrunning hsession.runnable hkeys' hends
  · obtain ⟨u', hret, -, -, hlog⟩ := Core.init_logs c hc s.machine.world.printed
    have hblank : Core.Vga.Shows (Core.Vga.layout []) c.vga.kcls := Core.Vga.shows_kcls c.vga
    refine ⟨_, hret, (hblank.ttyWrites _).1, ?_⟩
    rw [hlog, Core.readBack_log]
    rfl

/-! ### A session of one command -/

/-- The literals in a row, 128 bytes each. -/
def sampleImage : InitImage :=
  ⟨fun s => 0x10000 + 128 * (literals.map ascii).idxOf s, 0x8000, 0x9000⟩

/-- The literals, and zeros. -/
def sampleMemory : Bytes := fun a =>
  ((((literals.map ascii)[(a - 0x10000) / 128]?).getD [])[(a - 0x10000) % 128]?).getD 0

theorem sampleImage_placed : Placed .i386 sampleImage := by
  refine ⟨by decide, by decide, by decide +kernel, fun s hs a hlo hhi => ?_⟩
  have hlit : 0x10000 ≤ sampleImage.lit (ascii s) := Nat.le_add_right _ _
  have hbuf : sampleImage.buf = 0x8000 := rfl
  have hdbuf : sampleImage.dbuf = 0x9000 := rfl
  omega

theorem sampleMemory_loaded : Loaded sampleImage sampleMemory := by
  have hbytes : ∀ s ∈ literals, ∀ k < (ascii s ++ [0]).length,
      sampleMemory (sampleImage.lit (ascii s) + k) = (ascii s ++ [0]).getD k 0 := by
    decide +kernel
  intro s hs k b hb
  have hk : k < (ascii s ++ [0]).length := by
    by_contra hk
    rw [List.getElem?_eq_none (Nat.not_lt.mp hk)] at hb
    cases hb
  rw [hbytes s hs k hk, List.getD_eq_getElem?_getD, hb, Option.getD_some]

/-- `ls`, over an archive with one empty file `e`. -/
theorem session_transcript_ls : ∃ (m : UserMachine) (s₀ s : InitState),
    InitStart .i386 oneEmptyTables sampleImage m s₀ ∧
      Run (InitStep .i386 oneEmptyTables sampleImage) s₀ [ascii "ls\n"] s ∧
      s.machine.world.text = ascii "ZeptoOS Shell v1.0\nzepto> ls\ne\n" := by
  let m : UserMachine :=
    ⟨⟨some rootNode, []⟩, sampleMemory, ⟨fun i => (ascii "ls\n").getD (i % 3) 0x0A, 0, []⟩⟩
  have hkeys : ∀ i, m.world.keys i ≠ 0 := fun i => by
    have hall : ∀ j < 3, (ascii "ls\n").getD j 0x0A ≠ 0 := by decide
    exact hall _ (Nat.mod_lt i (by decide))
  obtain ⟨-, s₀, hstart, hall⟩ := session_transcript (m := m) oneEmptyFile_parse
    sampleImage_placed rfl sampleMemory_loaded hkeys
  obtain ⟨-, -, -, hnext, hrunning, hmore, -⟩ := hall [] s₀ (.refl s₀)
  have hpiece : Piece 127 [] (slice m.world.keys 0 3) := by decide
  have hends : Ends 127 (slice m.world.keys s₀.machine.world.next 3) := by
    rw [hnext]
    exact hpiece.ends
  have hgo : s₀.running = true := hrunning.mpr fun _ h => by cases h
  obtain ⟨ks, s, hstep⟩ := hmore.mpr ⟨hgo, 3, hends⟩
  obtain ⟨htext, hpieces, hread, -⟩ := hall [ks] s (.one hstep)
  have hks : ks = ascii "ls\n" := by
    rw [List.flatten_singleton] at hread
    have hlen : ks.length = 3 :=
      Piece.unique (hread ▸ hpieces ks (List.mem_singleton_self ks)) hpiece
    rw [hread, hlen]
    rfl
  subst hks
  exact ⟨m, s₀, s, hstart, .one hstep, htext.trans (by decide +kernel)⟩

end ZeptoOS.User
