import ZeptoOS.Lib.Fuel
import ZeptoOS.Lib.Run
import ZeptoOS.Syscall.Echo

/-!
# User — Shell

`_start` of `user/init.c`, over `sys_read` and the console.  The shell takes the last character of
what it read for the end of the line.  Where `sys_read` returned because the buffer was full it is
one of the line, and is lost (`commands_keep_text_iff`).

What `ls` prints is a parameter: `sys_getdents` has its own module.
-/

namespace ZeptoOS.User
open Lib Fs Syscall

/-- The characters of a string of the source. -/
def ascii (s : String) : List (BitVec 8) := s.toList.map fun c => BitVec.ofNat 8 c.toNat

/-- The loop of `_start` between two turns. -/
structure ShellState where
  mem : Bytes
  terminal : Terminal
  running : Bool

section Shell

variable {N : Type*} (K : Kernel N Terminal) (names : List (List (BitVec 8))) (buf : ℕ)

/-- `write_string` -/
def writeString (str : List (BitVec 8)) (t : Terminal) : Terminal :=
  str.foldl (fun t c => K.onTerminal.kprintf [c] t) t

/-- What the shell does with a command: whether it goes on, and the terminal after. -/
def runCommand (cmd : List (BitVec 8)) (t : Terminal) : Bool × Terminal :=
  if cmd = ascii "help" then
    (true, writeString K (ascii "Available commands: help, ls, hello, clear, exit\n") t)
  else if cmd = ascii "ls" then
    (true, names.foldl (fun t name => writeString K (ascii "\n") (writeString K name t)) t)
  else if cmd = ascii "hello" then (true, writeString K (ascii "Hello World With File System\n") t)
  else if cmd = ascii "clear" then (true, writeString K (ascii "\x1b[2J\x1b[H") t)
  else if cmd = ascii "exit" then (false, writeString K (ascii "Goodbye!\n") t)
  else if cmd ≠ [] then
    (true, writeString K (ascii "\n")
      (writeString K cmd (writeString K (ascii "Unknown command: ") t)))
  else (true, t)

/-- `buf`, as a string -/
def bufString (mem : Bytes) : List (BitVec 8) := (slice mem buf 128).takeWhile (· ≠ 0)

/-- A turn of the loop of `_start`: the command it saw, if `sys_read` returned one. -/
def shellTurn (s : ShellState) (fuel : ℕ) : Option (Option (List (BitVec 8)) × ShellState) :=
  let t := writeString K (ascii "zepto> ") s.terminal
  (sysRead K.onTerminal fuel 0 buf 127 s.mem t).map fun (len, mem, t) =>
    if len ≤ 0 then (none, ⟨mem, t, true⟩)
    else
      let last := buf + (len.toNat - 1)
      let mem := Function.update mem last 0
      let mem :=
        if 1 < len ∧ mem (last - 1) = 0x0D then Function.update mem (last - 1) 0 else mem
      let cmd := bufString buf mem
      let r := runCommand K names cmd t
      (some cmd, ⟨mem, r.2, r.1⟩)

/-- The shell goes from `s` to `s'`, with the command it saw. -/
def ShellStep (s : ShellState) (cmd : Option (List (BitVec 8))) (s' : ShellState) : Prop :=
  s.running = true ∧ Returns (shellTurn K names buf s) (cmd, s')

end Shell

/-! ### A read -/

/-- A printable character, or a newline. -/
def Typeable (c : BitVec 8) : Prop := c = 0x0A ∨ 0x20 ≤ c.toNat ∧ c.toNat < 0x7F

instance (c : BitVec 8) : Decidable (Typeable c) := instDecidableOr

theorem Typeable.ne {c d : BitVec 8} (hc : Typeable c) (hd : ¬ Typeable d) : c ≠ d :=
  fun e => hd (e ▸ hc)

/-- The keys from `p` on that a read with room for `room` takes are `m`: up to a newline, or as many
as there is room for. -/
structure Took (keys : ℕ → BitVec 8) (p m room : ℕ) : Prop where
  le : m ≤ room
  text : ∀ i, i + 1 < m → keys (p + i) ≠ 0x0A
  stop : m < room → ∃ k, m = k + 1 ∧ keys (p + k) = 0x0A

theorem Took.cons {keys : ℕ → BitVec 8} {p m room : ℕ} (h : Took keys (p + 1) m room)
    (hnl : keys p ≠ 0x0A) : Took keys p (m + 1) (room + 1) where
  le := Nat.succ_le_succ h.le
  text i hi := by
    cases i with
    | zero => exact hnl
    | succ i =>
        have := h.text i (by omega)
        rwa [Nat.add_right_comm] at this
  stop hm := by
    obtain ⟨k, hk, hkey⟩ := h.stop (by omega)
    rw [Nat.add_right_comm] at hkey
    exact ⟨k + 1, by omega, hkey⟩

section Read

variable {N : Type*} {K : Kernel N Terminal} {names : List (List (BitVec 8))} {buf len : ℕ}

/-- A turn of the loop of `sys_read` on such a key. -/
theorem readLoop_key {w : ℕ} (hw : w < len) {t : Terminal} (hkey : Typeable (t.keys t.next))
    (fuel : ℕ) (mem : Bytes) : readLoop K.onTerminal buf len (fuel + 1) w mem t =
      if t.keys t.next = 0x0A then
        some (w + 1, Function.update mem (buf + w) 0x0A,
          K.onTerminal.kprintf [0x0A] { t with next := t.next + 1 })
      else readLoop K.onTerminal buf len fuel (w + 1)
        (Function.update mem (buf + w) (t.keys t.next))
        (K.onTerminal.kprintf [t.keys t.next] { t with next := t.next + 1 }) := by
  rw [readLoop, if_pos hw, K.onTerminal_key]
  dsimp only
  rw [if_neg (hkey.ne (by decide)), if_neg (hkey.ne (by decide))]
  by_cases hnl : t.keys t.next = 0x0A
  · rw [if_pos (.inl hnl), if_pos hnl]
  · rw [if_neg (fun h => h.elim hnl (hkey.ne (by decide))), if_neg hnl]

/-- **The loop of `sys_read`** takes keys up to a newline, or until the buffer is full. -/
theorem readLoop_took : ∀ (room : ℕ) {w : ℕ} (mem : Bytes) (t : Terminal), w + room = len →
    (∀ i, Typeable (t.keys i)) →
    ∃ m mem' t', (∀ fuel > room, readLoop K.onTerminal buf len fuel w mem t =
        some (w + m, mem', t')) ∧
      t'.keys = t.keys ∧ t'.next = t.next + m ∧ (∀ a < buf + w, mem' a = mem a) ∧
      (∀ i < m, mem' (buf + w + i) = t.keys (t.next + i)) ∧ Took t.keys t.next m room
  | 0, w, mem, t, hlen, _ => by
      refine ⟨0, mem, t, fun fuel hfuel => ?_, rfl, rfl, fun _ _ => rfl,
        fun i hi => absurd hi (Nat.not_lt_zero i),
        ⟨Nat.le_refl 0, fun i hi => by omega, fun h => absurd h (Nat.lt_irrefl 0)⟩⟩
      obtain ⟨fuel, rfl⟩ := Nat.exists_eq_succ_of_ne_zero (Nat.ne_zero_of_lt hfuel)
      rw [readLoop, if_neg (by omega)]
      rfl
  | room + 1, w, mem, t, hlen, hkeys => by
      have hturn : ∀ fuel, readLoop K.onTerminal buf len (fuel + 1) w mem t = _ :=
        fun fuel => readLoop_key (by omega) (hkeys t.next) fuel mem
      by_cases hnl : t.keys t.next = 0x0A
      · refine ⟨1, Function.update mem (buf + w) 0x0A,
          K.onTerminal.kprintf [0x0A] { t with next := t.next + 1 }, fun fuel hfuel => ?_, rfl, rfl,
          fun a ha => ?_, fun i hi => ?_, ⟨by omega, fun i hi => by omega, fun _ => ⟨0, rfl, hnl⟩⟩⟩
        · obtain ⟨fuel, rfl⟩ := Nat.exists_eq_succ_of_ne_zero (Nat.ne_zero_of_lt hfuel)
          rw [hturn, if_pos hnl]
        · exact Function.update_of_ne (by omega) _ _
        · obtain rfl : i = 0 := by omega
          exact (Function.update_self ..).trans hnl.symm
      · -- the key is stored, and the rest is read with less room
        obtain ⟨m, mem', t', hloop, hk, hnext, hbelow, hread, htook⟩ := readLoop_took room
          (Function.update mem (buf + w) (t.keys t.next))
          (K.onTerminal.kprintf [t.keys t.next] { t with next := t.next + 1 })
          (show w + 1 + room = len by omega) hkeys
        have htook' : Took t.keys (t.next + 1) m room := htook
        refine ⟨m + 1, mem', t', fun fuel hfuel => ?_, hk, ?_, fun a ha => ?_, fun i hi => ?_,
          htook'.cons hnl⟩
        · obtain ⟨fuel, rfl⟩ := Nat.exists_eq_succ_of_ne_zero (Nat.ne_zero_of_lt hfuel)
          rw [hturn, if_neg hnl, hloop fuel (by omega), Nat.add_right_comm w 1 m]
          rfl
        · rw [hnext]
          change t.next + 1 + m = _
          omega
        · exact (hbelow a (by omega)).trans (Function.update_of_ne (by omega) _ _)
        · cases i with
          | zero =>
              rw [Nat.add_zero, hbelow _ (by omega), Function.update_self]
              rfl
          | succ i =>
              have hi : mem' (buf + (w + 1) + i) = t.keys (t.next + 1 + i) := hread i (by omega)
              rwa [← Nat.add_assoc buf, Nat.add_right_comm _ 1 i, Nat.add_right_comm _ 1 i] at hi

/-! ### A turn of the shell -/

/-- Printing reads no key. -/
theorem writeString_keys (str : List (BitVec 8)) (t : Terminal) :
    (writeString K str t).keys = t.keys ∧ (writeString K str t).next = t.next := by
  induction str generalizing t with
  | nil => exact ⟨rfl, rfl⟩
  | cons c str ih => exact ih (K.onTerminal.kprintf [c] t)

theorem runCommand_keys (cmd : List (BitVec 8)) (t : Terminal) :
    (runCommand K names cmd t).2.keys = t.keys ∧ (runCommand K names cmd t).2.next = t.next := by
  have htrans : ∀ {a b : Terminal} (str : List (BitVec 8)), b.keys = a.keys ∧ b.next = a.next →
      (writeString K str b).keys = a.keys ∧ (writeString K str b).next = a.next := by
    intro a b str h
    obtain ⟨hk, hn⟩ := writeString_keys (K := K) str b
    exact ⟨hk.trans h.1, hn.trans h.2⟩
  have hnames : ∀ (names : List (List (BitVec 8))) {a b : Terminal},
      b.keys = a.keys ∧ b.next = a.next →
      (names.foldl (fun t name => writeString K (ascii "\n") (writeString K name t)) b).keys =
          a.keys ∧
        (names.foldl (fun t name => writeString K (ascii "\n") (writeString K name t)) b).next =
          a.next := by
    intro names
    induction names with
    | nil => exact id
    | cons name names ih => exact fun h => ih (htrans _ (htrans _ h))
  have hrefl : t.keys = t.keys ∧ t.next = t.next := ⟨rfl, rfl⟩
  simp only [runCommand]
  split
  · exact htrans _ hrefl
  split
  · exact hnames names hrefl
  split
  · exact htrans _ hrefl
  split
  · exact htrans _ hrefl
  split
  · exact htrans _ hrefl
  split
  · exact htrans _ (htrans _ (htrans _ hrefl))
  · exact hrefl

/-- The string of a buffer that ends at the first zero. -/
theorem bufString_eq {mem : Bytes} {n : ℕ} (hn : n < 128) (hzero : mem (buf + n) = 0)
    (hne : ∀ i < n, mem (buf + i) ≠ 0) : bufString buf mem = slice mem buf n := by
  have hsplit : slice mem buf 128 = slice mem buf n ++ slice mem (buf + n) (1 + (127 - n)) := by
    rw [← slice_append]
    congr 1
    omega
  have hhead : slice mem (buf + n) (1 + (127 - n)) = 0 :: slice mem (buf + n + 1) (127 - n) := by
    rw [slice_append, ← hzero]
    rfl
  have htext : ∀ c ∈ slice mem buf n, decide (c ≠ 0) = true := by
    intro c hc
    obtain ⟨i, hi, rfl⟩ := List.mem_map.mp hc
    exact decide_eq_true (hne i (List.mem_range.mp hi))
  rw [bufString, hsplit, List.takeWhile_append_of_pos htext, hhead,
    List.takeWhile_cons_of_neg (by decide), List.append_nil]

/-- **A turn of the shell** takes the keys of one read, and sees all but the last of them. -/
theorem shellTurn_returns (K : Kernel N Terminal) (names : List (List (BitVec 8))) (buf : ℕ)
    (s : ShellState) (hkeys : ∀ i, Typeable (s.terminal.keys i)) :
    ∃ m s', Returns (shellTurn K names buf s)
        (some (slice s.terminal.keys s.terminal.next m), s') ∧
      s'.terminal.keys = s.terminal.keys ∧ s'.terminal.next = s.terminal.next + (m + 1) ∧
      Took s.terminal.keys s.terminal.next (m + 1) 127 := by
  obtain ⟨hk₀, hn₀⟩ := writeString_keys (K := K) (ascii "zepto> ") s.terminal
  have hturn : ∀ fuel, shellTurn K names buf s fuel =
      (sysRead K.onTerminal fuel 0 buf 127 s.mem (writeString K (ascii "zepto> ") s.terminal)).map
        _ := fun _ => rfl
  generalize writeString K (ascii "zepto> ") s.terminal = t₀ at hk₀ hn₀ hturn
  have hlen : 0 + 127 = 127 := rfl
  obtain ⟨n, mem, t, hloop, hk, hnext, -, hread, htook⟩ :=
    readLoop_took (K := K) 127 s.mem t₀ hlen fun i => hk₀ ▸ hkeys i
  rw [hk₀, hn₀] at htook
  rw [hn₀] at hnext
  simp only [Nat.add_zero, Nat.zero_add, hk₀, hn₀] at hloop hread hk
  obtain ⟨m, rfl⟩ : ∃ m, n = m + 1 := by
    by_cases hn : n < 127
    · obtain ⟨k, hk, -⟩ := htook.stop hn
      exact ⟨k, hk⟩
    · exact ⟨n - 1, by omega⟩
  have hle := htook.le
  have hother : ∀ i < m, Function.update mem (buf + m) 0 (buf + i) =
      s.terminal.keys (s.terminal.next + i) := by
    intro i hi
    rw [Function.update_of_ne (by omega), hread i (by omega)]
  have hcmd : bufString buf (Function.update mem (buf + m) 0) =
      slice s.terminal.keys s.terminal.next m := by
    rw [bufString_eq (by omega) (Function.update_self ..) fun i hi => ?_]
    · exact slice_eq_slice.mpr hother
    · rw [hother i hi]
      exact (hkeys _).ne (by decide)
  -- the character before the last is no carriage return
  have hcr : ¬ ((1 : ℤ) < ((m + 1 : ℕ) : ℤ) ∧
      Function.update mem (buf + m) 0 (buf + m - 1) = 0x0D) := by
    rintro ⟨hlt, hcr⟩
    have hprev := hother (m - 1) (by omega)
    rw [← Nat.add_sub_assoc (by omega), hcr] at hprev
    exact (hkeys _).ne (by decide) hprev.symm
  obtain ⟨hk₁, hn₁⟩ : (runCommand K names (slice s.terminal.keys s.terminal.next m) t).2.keys =
      t.keys ∧ (runCommand K names (slice s.terminal.keys s.terminal.next m) t).2.next = t.next :=
    runCommand_keys _ t
  refine ⟨m, ⟨Function.update mem (buf + m) 0,
    (runCommand K names (slice s.terminal.keys s.terminal.next m) t).2,
    (runCommand K names (slice s.terminal.keys s.terminal.next m) t).1⟩,
    ⟨128, fun fuel hfuel => ?_⟩, hk₁.trans hk, hn₁.trans hnext, htook⟩
  have hpos : ¬ (((m + 1 : ℕ) : ℤ) ≤ 0) := by omega
  have hlast : ((m + 1 : ℕ) : ℤ).toNat - 1 = m := by omega
  rw [hturn, sysRead, if_neg (by decide), hloop fuel (by omega)]
  simp only [Option.map_some]
  rw [if_neg hpos, hlast, if_neg hcr, hcmd]

end Read

/-! ### A run of the shell -/

/-- The commands, one after another. -/
def commandText (cmds : List (Option (List (BitVec 8)))) : List (BitVec 8) :=
  cmds.flatMap (·.getD [])

/-- The keys from `p` up to `q`, without the newlines. -/
def typedText (keys : ℕ → BitVec 8) (p q : ℕ) : List (BitVec 8) :=
  (slice keys p (q - p)).filter (· ≠ 0x0A)

/-- Among any 127 keys in a row from `p` up to `q` there is a newline: no line has more than 126
characters. -/
def LinesFit (keys : ℕ → BitVec 8) (p q : ℕ) : Prop :=
  ∀ i, p ≤ i → i + 127 ≤ q → ∃ j, i ≤ j ∧ j < i + 127 ∧ keys j = 0x0A

section Run

variable {keys : ℕ → BitVec 8} {p q m : ℕ}

theorem typedText_append {r : ℕ} (hpq : p ≤ q) (hqr : q ≤ r) :
    typedText keys p r = typedText keys p q ++ typedText keys q r := by
  have hsum : r - p = (q - p) + (r - q) := by omega
  have hstart : p + (q - p) = q := by omega
  rw [typedText, hsum, slice_append, hstart, List.filter_append]
  rfl

/-- The text of a read: all but a newline at the end. -/
theorem Took.typedText (h : Took keys p (m + 1) 127) : typedText keys p (p + (m + 1)) =
    slice keys p m ++ if keys (p + m) = 0x0A then [] else [keys (p + m)] := by
  have hlen : p + (m + 1) - p = m + 1 := by omega
  have htext : (slice keys p m).filter (· ≠ 0x0A) = slice keys p m := by
    rw [List.filter_eq_self]
    intro c hc
    obtain ⟨i, hi, rfl⟩ := List.mem_map.mp hc
    have := List.mem_range.mp hi
    exact decide_eq_true (h.text i (by omega))
  have hlast : (slice keys (p + m) 1).filter (· ≠ 0x0A) =
      if keys (p + m) = 0x0A then [] else [keys (p + m)] := by
    have hone : slice keys (p + m) 1 = [keys (p + m)] := rfl
    rw [hone]
    by_cases hnl : keys (p + m) = 0x0A
    · rw [if_pos hnl, List.filter_cons_of_neg (by simpa using hnl), List.filter_nil]
    · rw [if_neg hnl, List.filter_cons_of_pos (by simpa using hnl), List.filter_nil]
  rw [User.typedText, hlen, slice_append, List.filter_append, htext, hlast]

/-- A read that ends a line leaves the rest to fit. -/
theorem Took.linesFit (h : Took keys p (m + 1) 127) (hnl : keys (p + m) = 0x0A) :
    LinesFit keys p q ↔ LinesFit keys (p + (m + 1)) q := by
  refine ⟨fun hfit i hi => hfit i (by omega), fun hfit i hi hq => ?_⟩
  have hle := h.le
  by_cases hin : p + (m + 1) ≤ i
  · exact hfit i hin hq
  · exact ⟨p + m, by omega, by omega, hnl⟩

/-- A read that does not end a line took 127 characters of it. -/
theorem Took.not_linesFit (h : Took keys p (m + 1) 127) (hnl : keys (p + m) ≠ 0x0A)
    (hq : p + (m + 1) ≤ q) : ¬ LinesFit keys p q := by
  have hfull : m + 1 = 127 := by
    by_contra hne
    obtain ⟨k, hk, hkey⟩ := h.stop (Nat.lt_of_le_of_ne h.le hne)
    obtain rfl : m = k := by omega
    exact hnl hkey
  intro hfit
  obtain ⟨j, hlo, hhi, hkey⟩ := hfit p (Nat.le_refl p) (by omega)
  obtain ⟨i, rfl⟩ := Nat.exists_eq_add_of_le hlo
  by_cases hi : i = m
  · exact hnl (hi ▸ hkey)
  · exact h.text i (by omega) hkey

variable {N : Type*} {K : Kernel N Terminal} {names : List (List (BitVec 8))} {buf : ℕ}

theorem ShellStep.reads {s s' : ShellState} {cmd : Option (List (BitVec 8))}
    (h : ShellStep K names buf s cmd s') (hkeys : ∀ i, Typeable (s.terminal.keys i)) :
    ∃ m, cmd = some (slice s.terminal.keys s.terminal.next m) ∧
      s'.terminal.keys = s.terminal.keys ∧ s'.terminal.next = s.terminal.next + (m + 1) ∧
      Took s.terminal.keys s.terminal.next (m + 1) 127 := by
  obtain ⟨m, s₁, hret, hrest⟩ := shellTurn_returns K names buf s hkeys
  obtain ⟨rfl, rfl⟩ := Prod.mk.inj (hret.unique h.2)
  exact ⟨m, rfl, hrest⟩

/-- **A run of the shell**: the commands are never more than the text, and are all of it exactly if
the lines fit. -/
theorem commands_run {s s' : ShellState} {cmds : List (Option (List (BitVec 8)))}
    (hr : Run (ShellStep K names buf) s cmds s') (hkeys : ∀ i, Typeable (s.terminal.keys i)) :
    s.terminal.next ≤ s'.terminal.next ∧
    (commandText cmds).length ≤
      (typedText s.terminal.keys s.terminal.next s'.terminal.next).length ∧
    (commandText cmds = typedText s.terminal.keys s.terminal.next s'.terminal.next ↔
      LinesFit s.terminal.keys s.terminal.next s'.terminal.next) := by
  induction hr with
  | refl s =>
      have hnone : typedText s.terminal.keys s.terminal.next s.terminal.next = [] := by
        rw [typedText, Nat.sub_self]
        rfl
      refine ⟨Nat.le_refl _, Nat.zero_le _, iff_of_true hnone.symm fun i hi hq => ?_⟩
      omega
  | @more s s₁ s' cmd cmds h _ ih =>
      obtain ⟨m, rfl, hk, hnext, htook⟩ := h.reads hkeys
      obtain ⟨hle, hlength, hiff⟩ := ih (by rw [hk]; exact hkeys)
      rw [hk, hnext] at hlength hiff
      rw [hnext] at hle
      have htext : commandText (some (slice s.terminal.keys s.terminal.next m) :: cmds) =
          slice s.terminal.keys s.terminal.next m ++ commandText cmds := rfl
      rw [htext, typedText_append (by omega) hle, htook.typedText]
      refine ⟨by omega, ?_, ?_⟩
      · simp only [List.length_append]
        omega
      · by_cases hnl : s.terminal.keys (s.terminal.next + m) = 0x0A
        · rw [if_pos hnl, List.append_nil, List.append_right_inj, hiff]
          exact (htook.linesFit hnl).symm
        · rw [if_neg hnl]
          -- the last character is lost, so the commands are shorter than the text
          refine iff_of_false (fun e => ?_) (htook.not_linesFit hnl hle)
          have := congrArg List.length e
          simp only [List.length_append, List.length_singleton] at this
          omega

/-- **No character is lost** between the keyboard and the commands, exactly if every line has at
most 126 characters. -/
theorem commands_keep_text_iff {s s' : ShellState} {cmds : List (Option (List (BitVec 8)))}
    (hr : Run (ShellStep K names buf) s cmds s') (hkeys : ∀ i, Typeable (s.terminal.keys i)) :
    commandText cmds = typedText s.terminal.keys s.terminal.next s'.terminal.next ↔
      LinesFit s.terminal.keys s.terminal.next s'.terminal.next :=
  (commands_run hr hkeys).2.2

/-- The shell at its start, with these keys to come. -/
def shellStart (keys : ℕ → BitVec 8) : ShellState := ⟨fun _ => 0, ⟨keys, 0, blankVga⟩, true⟩

/-- A line of one character is seen. -/
theorem commands_keep_text_short :
    ∃ cmd s', ShellStep bareKernel [] 0x800000
      (shellStart fun i => if i % 2 = 0 then 0x61 else 0x0A) cmd s' ∧
    commandText [cmd] =
      typedText (fun i => if i % 2 = 0 then 0x61 else 0x0A) 0 s'.terminal.next := by
  have hkeys : ∀ i, Typeable ((fun i => if i % 2 = 0 then 0x61 else 0x0A : ℕ → BitVec 8) i) := by
    intro i
    by_cases h : i % 2 = 0
    · simp only [h, if_true]
      decide
    · simp only [h, if_false]
      decide
  obtain ⟨m, s', hret, -⟩ := shellTurn_returns bareKernel [] 0x800000
    (shellStart fun i => if i % 2 = 0 then 0x61 else 0x0A) hkeys
  refine ⟨_, s', ⟨rfl, hret⟩, (commands_keep_text_iff (.one ⟨rfl, hret⟩) hkeys).mpr ?_⟩
  intro i _ _
  by_cases h : i % 2 = 0
  · refine ⟨i + 1, by omega, by omega, if_neg (by omega)⟩
  · exact ⟨i, by omega, by omega, if_neg h⟩

/-- Of 127 characters without a newline the shell sees 126. -/
theorem full_read_loses_character : ¬ ∀ (K : Kernel Unit Terminal) (names : List (List (BitVec 8)))
    (buf : ℕ) (s s' : ShellState) (cmds : List (Option (List (BitVec 8)))),
    Run (ShellStep K names buf) s cmds s' → (∀ i, Typeable (s.terminal.keys i)) →
    commandText cmds = typedText s.terminal.keys s.terminal.next s'.terminal.next := by
  intro hall
  have hkeys : ∀ i, Typeable ((shellStart fun _ => 0x61).terminal.keys i) := fun _ =>
    (by decide : Typeable 0x61)
  obtain ⟨m, s', hret, -, hnext, htook⟩ := shellTurn_returns bareKernel [] 0x800000
    (shellStart fun _ => 0x61) hkeys
  have hrun : Run (ShellStep bareKernel [] 0x800000) (shellStart fun _ => 0x61) _ s' :=
    .one ⟨rfl, hret⟩
  have hfit := (commands_run hrun hkeys).2.2.mp (hall _ _ _ _ _ _ hrun hkeys)
  have hkey : (0x61 : BitVec 8) ≠ 0x0A := by decide
  exact htook.not_linesFit hkey (Nat.le_of_eq hnext.symm) hfit

end Run

end ZeptoOS.User
