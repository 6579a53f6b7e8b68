import ZeptoOS.Core.Vga
import ZeptoOS.Lib.Walk
import ZeptoOS.Syscall.Handler

/-!
# Syscall — Echo

The echo of `sys_read` on the console, while it collects a line.  A key is echoed by the string
`sys_read` prints for it: itself, or for a backspace `"\b \b"`, which `tty_write` prints as three
characters.  So the row shows the line as long as no character was erased (`echo_matches_iff`).
-/

namespace ZeptoOS.Syscall
open Lib Fs ZeptoOS.Core

/-! ### A turn of the loop -/

section Turn

variable {N σ : Type*} (K : Kernel N σ) (buf len : ℕ)

/-- The loop of `sys_read` between two keys. -/
structure Line (σ : Type*) where
  written : ℕ
  mem : Bytes
  world : σ

/-- A turn of the loop of `sys_read`, and none where the call returns. -/
def readTurn (l : Line σ) : Option (Line σ) :=
  if l.written < len then
    let (c, s) := K.keyboardGetChar l.world
    if c = 0x08 then
      if 0 < l.written then some ⟨l.written - 1, l.mem, K.kprintf [0x08, 0x20, 0x08] s⟩
      else some ⟨l.written, l.mem, s⟩
    else if c = 0x0A ∨ c = 0x0D then none
    else
      some ⟨l.written + 1, Function.update l.mem (buf + l.written) c,
        K.kprintf (if c = 0 then [] else [c]) s⟩
  else none

variable {K buf len}

/-- The loop of `sys_read` takes these turns. -/
theorem readLoop_turn {l l' : Line σ} (h : readTurn K buf len l = some l') (fuel : ℕ) :
    readLoop K buf len (fuel + 1) l.written l.mem l.world =
      readLoop K buf len fuel l'.written l'.mem l'.world := by
  rw [readTurn] at h
  rw [readLoop]
  split at h
  · rename_i hlt
    rw [if_pos hlt]
    dsimp only at h ⊢
    split at h
    · rename_i hb
      rw [if_pos hb]
      split at h
      · rename_i hpos
        cases h
        exact if_pos hpos
      · rename_i hpos
        cases h
        exact if_neg hpos
    · rename_i hb
      rw [if_neg hb]
      split at h
      · cases h
      · rename_i hnl
        cases h
        exact if_neg hnl
  · cases h

/-- **The loop** after `n` turns. -/
theorem readLoop_visit {l l' : Line σ} : ∀ {n : ℕ}, Lib.visit (readTurn K buf len) l n = some l' →
    ∀ fuel, readLoop K buf len (fuel + n) l.written l.mem l.world =
      readLoop K buf len fuel l'.written l'.mem l'.world
  | 0, h, fuel => by
      cases h
      rfl
  | n + 1, h, fuel => by
      rw [Lib.visit] at h
      obtain ⟨l₁, h₁, h₂⟩ := Option.bind_eq_some_iff.mp h
      rw [← readLoop_turn h₂ fuel, ← readLoop_visit h₁ (fuel + 1)]
      congr 1
      omega

end Turn

/-! ### Keys and console -/

/-- The keys that will be typed, of which `next` were read, and the console. -/
structure Terminal where
  keys : ℕ → BitVec 8
  next : ℕ
  vga : Vga

/-- The kernel with the keys and the console of a terminal. -/
def Kernel.onTerminal {N : Type*} (K : Kernel N Terminal) : Kernel N Terminal :=
  { K with
    keyboardGetChar := fun t => (t.keys t.next, { t with next := t.next + 1 })
    kprintf := fun str t => { t with vga := t.vga.ttyWrite str } }

@[simp] theorem Kernel.onTerminal_key {N : Type*} (K : Kernel N Terminal) (t : Terminal) :
    K.onTerminal.keyboardGetChar t = (t.keys t.next, { t with next := t.next + 1 }) := rfl

@[simp] theorem Kernel.onTerminal_kprintf {N : Type*} (K : Kernel N Terminal)
    (str : List (BitVec 8)) (t : Terminal) :
    K.onTerminal.kprintf str t = { t with vga := t.vga.ttyWrite str } := rfl

/-- The cursor is in row `r` at column `c`, and the rest of the row is blank. -/
structure PromptAt (v : Vga) (r c : ℕ) : Prop where
  row : r < 25
  column : c < 80
  cursor : v.cursor = 80 * r + c
  blank : ∀ k, c ≤ k → k < 80 → v.cell (80 * r + k) = glyph 0x20

/-- A console that shows a text has its cursor after what is on the last row. -/
theorem promptAt_of_shows {L : Layout (BitVec 8)} {v : Vga} (h : v.Shows L)
    (hrow : L.row.length < 80) : PromptAt v (min L.done.length 24) L.row.length where
  row := by omega
  column := hrow
  cursor := h.cursor
  blank k hk hk' := by
    have := h.cursor
    exact h.blank (by omega) (by omega)

/-- The row `r` shows what it showed up to column `c`, then the `written` characters at `buf`, and
then nothing; the cursor is after them. -/
structure Echoed (v₀ : Vga) (r c buf : ℕ) (l : Line Terminal) : Prop where
  cursor : l.world.vga.cursor = 80 * r + (c + l.written)
  cell : ∀ k < 80, l.world.vga.cell (80 * r + k) =
    if k < c then v₀.cell (80 * r + k)
    else if k < c + l.written then glyph (l.mem (buf + (k - c)))
    else glyph 0x20

section Echo

variable {N : Type*} {K : Kernel N Terminal} {buf len r c : ℕ} {v₀ : Vga} {l l' : Line Terminal}

/-- What a turn does: a backspace in an empty line, one that erases, or a character. -/
theorem readTurn_cases (h : readTurn K.onTerminal buf len l = some l') :
    l'.world.keys = l.world.keys ∧ l'.world.next = l.world.next + 1 ∧
    ((l.world.keys l.world.next = 0x08 ∧ l.written = 0 ∧ l'.written = 0 ∧ l'.mem = l.mem ∧
        l'.world.vga = l.world.vga) ∨
      (l.world.keys l.world.next = 0x08 ∧ 0 < l.written ∧ l'.written = l.written - 1 ∧
        l'.world.vga = l.world.vga.ttyWrite [0x08, 0x20, 0x08]) ∨
      (l.world.keys l.world.next ≠ 0x08 ∧ l.world.keys l.world.next ≠ 0x0A ∧
        l'.written = l.written + 1 ∧
        l'.mem = Function.update l.mem (buf + l.written) (l.world.keys l.world.next) ∧
        l'.world.vga = l.world.vga.ttyWrite
          (if l.world.keys l.world.next = 0 then [] else [l.world.keys l.world.next]))) := by
  rw [readTurn, K.onTerminal_key] at h
  split at h
  · simp only [Kernel.onTerminal_kprintf] at h
    split at h
    · rename_i hb
      split at h
      · rename_i hpos
        cases h
        exact ⟨rfl, rfl, .inr (.inl ⟨hb, hpos, rfl, rfl⟩)⟩
      · rename_i hpos
        cases h
        have hzero := Nat.eq_zero_of_not_pos hpos
        exact ⟨rfl, rfl, .inl ⟨hb, hzero, hzero, rfl, rfl⟩⟩
    · rename_i hb
      split at h
      · cases h
      · rename_i hnl
        cases h
        exact ⟨rfl, rfl, .inr (.inr ⟨hb, fun e => hnl (.inl e), rfl, rfl, rfl⟩)⟩
  · cases h

/-- **An echoed character** keeps the row and the line the same. -/
theorem Echoed.put (h : Echoed v₀ r c buf l) (hr : r < 25) {key : BitVec 8} (hkey : key ≠ 0)
    (hnl : key ≠ 0x0A) (hroom : c + l'.written < 80) (hwritten : l'.written = l.written + 1)
    (hmem : l'.mem = Function.update l.mem (buf + l.written) key)
    (hvga : l'.world.vga = l.world.vga.ttyWrite [key]) : Echoed v₀ r c buf l' := by
  have hcursor := h.cursor
  have hput : l'.world.vga =
      { l.world.vga.store l.world.vga.cursor (glyph key) with
        cursor := l.world.vga.cursor + 1 } := by
    have hfit : ¬ 25 * 80 ≤ l.world.vga.cursor + 1 := by omega
    rw [hvga, Vga.ttyWrite, if_neg hkey, Vga.ttyWrite, Vga.ttyPut, if_neg hnl]
    exact if_neg hfit
  constructor
  · rw [hput]
    dsimp only
    omega
  · intro k hk
    have hcell := h.cell k hk
    rw [hput, Vga.store]
    dsimp only
    by_cases hat : k = c + l.written
    · rw [hat, hcursor, Function.update_self, if_neg (by omega), if_pos (by omega), hmem,
        Nat.add_sub_cancel_left, Function.update_self]
    · rw [Function.update_of_ne (by omega), hcell]
      split
      · rfl
      · split
        · rw [if_pos (by omega), hmem, Function.update_of_ne (by omega)]
        · rw [if_neg (by omega)]

theorem ttyPut_cursor {v : Vga} {key : BitVec 8} (hnl : key ≠ 0x0A) :
    (v.ttyPut key).cursor = if 2000 ≤ v.cursor + 1 then 1920 else v.cursor + 1 := by
  rw [Vga.ttyPut, if_neg hnl]
  exact apply_ite Vga.cursor _ _ _

/-- **An erasing backspace** moves the cursor on and not back. -/
theorem not_echoed_of_erase (h : Echoed v₀ r c buf l) (hpos : 0 < l.written)
    (hwritten : l'.written = l.written - 1)
    (hvga : l'.world.vga = l.world.vga.ttyWrite [0x08, 0x20, 0x08]) :
    ¬ Echoed v₀ r c buf l' := by
  intro h'
  have hcursor := h.cursor
  have hcursor' := h'.cursor
  have hfirst : (l.world.vga.ttyPut 0x08).cursor = _ := ttyPut_cursor (by decide)
  have hsecond : ((l.world.vga.ttyPut 0x08).ttyPut 0x20).cursor = _ := ttyPut_cursor (by decide)
  have hthird : (((l.world.vga.ttyPut 0x08).ttyPut 0x20).ttyPut 0x08).cursor = _ :=
    ttyPut_cursor (by decide)
  have hvga' : l'.world.vga = ((l.world.vga.ttyPut 0x08).ttyPut 0x20).ttyPut 0x08 := hvga
  rw [hvga'] at hcursor'
  split at hfirst <;> split at hsecond <;> split at hthird <;> omega

theorem PromptAt.echoed (h : PromptAt v₀ r c) (buf : ℕ) (mem : Bytes) (keys : ℕ → BitVec 8) :
    Echoed v₀ r c buf ⟨0, mem, ⟨keys, 0, v₀⟩⟩ where
  cursor := h.cursor
  cell k hk := by
    dsimp only
    split
    · rfl
    · rw [if_neg (by omega)]
      exact h.blank k (by omega) hk

end Echo

/-! ### After each key -/

section Keys

variable {N : Type*} (K : Kernel N Terminal) (buf len : ℕ) (mem : Bytes) (keys : ℕ → BitVec 8)
  (v₀ : Vga)

/-- The line after `n` keys, unless the call has returned. -/
def typed (n : ℕ) : Option (Line Terminal) :=
  Lib.visit (readTurn K.onTerminal buf len) ⟨0, mem, ⟨keys, 0, v₀⟩⟩ n

/-- No backspace among the first `n` keys erases. -/
def NoErase (n : ℕ) : Prop :=
  ∀ i < n, ∀ l, typed K buf len mem keys v₀ i = some l → keys i = 0x08 → l.written = 0

variable {K buf len mem keys v₀} {n r c : ℕ} {l : Line Terminal}

theorem typed_next : ∀ {n : ℕ} {l : Line Terminal}, typed K buf len mem keys v₀ n = some l →
    l.world.keys = keys ∧ l.world.next = n
  | 0, l, h => by
      cases h
      exact ⟨rfl, rfl⟩
  | n + 1, l, h => by
      obtain ⟨l₁, h₁, hturn⟩ := Option.bind_eq_some_iff.mp h
      obtain ⟨hkeys, hnext⟩ := typed_next h₁
      obtain ⟨hkeys', hnext', -⟩ := readTurn_cases hturn
      exact ⟨hkeys'.trans hkeys, by rw [hnext', hnext]⟩

theorem typed_written_le : ∀ {n : ℕ} {l : Line Terminal},
    typed K buf len mem keys v₀ n = some l → l.written ≤ n
  | 0, l, h => by
      cases h
      exact Nat.le_refl 0
  | n + 1, l, h => by
      obtain ⟨l₁, h₁, hturn⟩ := Option.bind_eq_some_iff.mp h
      have hle := typed_written_le h₁
      obtain ⟨-, -, hcases⟩ := readTurn_cases hturn
      rcases hcases with ⟨-, -, hw, -⟩ | ⟨-, -, hw, -⟩ | ⟨-, -, hw, -⟩ <;> omega

theorem typed_isSome (h : (typed K buf len mem keys v₀ n).isSome) {i : ℕ} (hi : i ≤ n) :
    ∃ l, typed K buf len mem keys v₀ i = some l := by
  refine Option.ne_none_iff_exists'.mp fun hnone => ?_
  have hlater : typed K buf len mem keys v₀ n = none := visit_none hnone hi
  rw [hlater] at h
  cases h

/-- **A turn** that does not erase: nothing happens, or a character is added. -/
theorem NoErase.turn (hno : NoErase K buf len mem keys v₀ (n + 1)) {l' : Line Terminal}
    (h : typed K buf len mem keys v₀ (n + 1) = some l') :
    ∃ l, typed K buf len mem keys v₀ n = some l ∧
      ((keys n = 0x08 ∧ l'.written = l.written ∧ l'.mem = l.mem ∧ l'.world.vga = l.world.vga) ∨
        (keys n ≠ 0x08 ∧ keys n ≠ 0x0A ∧ l'.written = l.written + 1 ∧
          l'.mem = Function.update l.mem (buf + l.written) (keys n) ∧
          l'.world.vga = l.world.vga.ttyWrite (if keys n = 0 then [] else [keys n]))) := by
  obtain ⟨l, hl, hturn⟩ := Option.bind_eq_some_iff.mp h
  obtain ⟨hkeys, hnext⟩ := typed_next hl
  obtain ⟨-, -, hcases⟩ := readTurn_cases hturn
  rw [hkeys, hnext] at hcases
  refine ⟨l, hl, ?_⟩
  rcases hcases with ⟨hb, hzero, hw, hm, hv⟩ | ⟨hb, hpos, -⟩ | hchar
  · exact .inl ⟨hb, hw.trans hzero.symm, hm, hv⟩
  · exact absurd (hno n (Nat.lt_succ_self n) l hl hb) (Nat.ne_of_gt hpos)
  · exact .inr hchar

/-- Without erasing, the line is what was typed but the backspaces. -/
theorem NoErase.written (hno : NoErase K buf len mem keys v₀ n)
    (h : typed K buf len mem keys v₀ n = some l) :
    l.written = (List.range n).countP fun i => keys i ≠ 0x08 := by
  induction n generalizing l with
  | zero =>
      cases h
      rfl
  | succ n ih =>
      obtain ⟨l₁, h₁, hturn⟩ := hno.turn h
      have hwritten := ih (fun i hi => hno i (Nat.lt_succ_of_lt hi)) h₁
      rw [List.range_succ, List.countP_append, ← hwritten]
      rcases hturn with ⟨hb, hw, -⟩ | ⟨hb, -, hw, -⟩
      · rw [hw, List.countP_singleton, if_neg (by simpa using hb), Nat.add_zero]
      · rw [hw, List.countP_singleton, if_pos (by simpa using hb)]

/-- A backspace erases exactly if something else was typed before it. -/
theorem noErase_iff (hsome : (typed K buf len mem keys v₀ n).isSome) :
    NoErase K buf len mem keys v₀ n ↔ ∀ i < n, keys i = 0x08 → ∀ j < i, keys j = 0x08 := by
  constructor
  · intro hno i hi hb j hj
    obtain ⟨l, hl⟩ := typed_isSome hsome (Nat.le_of_lt hi)
    have hno' : NoErase K buf len mem keys v₀ i := fun k hk => hno k (Nat.lt_trans hk hi)
    have hzero := (hno'.written hl).symm.trans (hno i hi l hl hb)
    rw [List.countP_eq_zero] at hzero
    simpa using hzero j (List.mem_range.mpr hj)
  · intro hkeys i
    induction i using Nat.strong_induction_on with
    | _ i ih =>
        intro hi l hl hb
        have hno : NoErase K buf len mem keys v₀ i := fun k hk => ih k hk (Nat.lt_trans hk hi)
        rw [hno.written hl, List.countP_eq_zero]
        intro j hj
        simpa using hkeys i hi hb j (List.mem_range.mp hj)

/-- The row shows the line after each of the first `n` keys. -/
def EchoesLine (K : Kernel N Terminal) (buf len : ℕ) (mem : Bytes) (keys : ℕ → BitVec 8) (v₀ : Vga)
    (r c n : ℕ) : Prop :=
  ∀ i ≤ n, ∀ l, typed K buf len mem keys v₀ i = some l → Echoed v₀ r c buf l

theorem NoErase.echoed (hno : NoErase K buf len mem keys v₀ n) (hprompt : PromptAt v₀ r c)
    (hkeys : ∀ i, keys i ≠ 0)
    (hroom : ∀ i ≤ n, ∀ l, typed K buf len mem keys v₀ i = some l → c + l.written < 80)
    (h : typed K buf len mem keys v₀ n = some l) : Echoed v₀ r c buf l := by
  induction n generalizing l with
  | zero =>
      cases h
      exact hprompt.echoed buf mem keys
  | succ n ih =>
      obtain ⟨l₁, h₁, hturn⟩ := hno.turn h
      have hecho := ih (fun i hi => hno i (Nat.lt_succ_of_lt hi))
        (fun i hi => hroom i (Nat.le_succ_of_le hi)) h₁
      rcases hturn with ⟨-, hw, hm, hv⟩ | ⟨-, hnl, hw, hm, hv⟩
      · refine ⟨?_, ?_⟩
        · rw [hv, hw]
          exact hecho.cursor
        · rw [hv, hw, hm]
          exact hecho.cell
      · rw [if_neg (hkeys n)] at hv
        exact hecho.put hprompt.row (hkeys n) hnl (hroom _ (Nat.le_refl _) l h) hw hm hv

/-- **The echo matches the line** after each key, exactly if every backspace comes before all other
characters. -/
theorem echo_matches_iff (K : Kernel N Terminal) (buf len : ℕ) (mem : Bytes)
    (hprompt : PromptAt v₀ r c) (hkeys : ∀ i, keys i ≠ 0)
    (hsome : (typed K buf len mem keys v₀ n).isSome)
    (hroom : ∀ i ≤ n, ∀ l, typed K buf len mem keys v₀ i = some l → c + l.written < 80) :
    EchoesLine K buf len mem keys v₀ r c n ↔
      ∀ i < n, keys i = 0x08 → ∀ j < i, keys j = 0x08 := by
  rw [← noErase_iff hsome]
  constructor
  · intro hecho i hi l hl hb
    by_contra hzero
    obtain ⟨l', hl'⟩ := typed_isSome hsome (Nat.succ_le_of_lt hi)
    obtain ⟨l₁, hl₁, hturn⟩ := Option.bind_eq_some_iff.mp hl'
    obtain rfl : l = l₁ := Option.some.inj (hl.symm.trans hl₁)
    obtain ⟨hstream, hnext⟩ := typed_next hl
    obtain ⟨-, -, hcases⟩ := readTurn_cases hturn
    rw [hstream, hnext] at hcases
    rcases hcases with ⟨-, hz, -⟩ | ⟨-, hpos, hw, hv⟩ | ⟨hnb, -⟩
    · exact hzero hz
    · exact not_echoed_of_erase (hecho i (Nat.le_of_lt hi) l hl) hpos hw hv
        (hecho (i + 1) hi l' hl')
    · exact hnb hb
  · intro hno i hi l hl
    refine NoErase.echoed (fun j hj => hno j (Nat.lt_of_lt_of_le hj hi)) hprompt hkeys
      (fun j hj => hroom j (Nat.le_trans hj hi)) hl

end Keys

/-! ### Two keys -/

/-- A kernel without files. -/
def bareKernel : Kernel Unit Terminal where
  flags := fun _ _ => 2
  finddir := fun _ _ => none
  readdir := fun _ _ => none
  mkdir := fun _ _ => none
  link := fun _ _ => none
  unlink := fun _ _ => none
  keyboardGetChar := fun t => (0x0A, t)
  kprintf := fun _ t => t
  taskExit := fun t => t

/-- A blank screen, with the cursor where a prompt of seven characters would leave it. -/
def blankVga : Vga := ⟨fun _ => glyph 0x20, 7, []⟩

theorem blankVga_prompt : PromptAt blankVga 0 7 :=
  ⟨by decide, by decide, rfl, fun _ _ _ => rfl⟩

/-- Two characters are echoed. -/
theorem echo_matches_two :
    EchoesLine bareKernel 0x800000 127 (fun _ => 0) (fun _ => 0x61) blankVga 0 7 2 := by
  refine (echo_matches_iff bareKernel 0x800000 127 _ blankVga_prompt (fun _ => by decide)
    (by decide) ?_).mpr (fun i _ h => absurd h (by decide))
  intro i hi l hl
  have := typed_written_le hl
  omega

/-- A backspace after a character leaves the cursor four columns after the line. -/
theorem erase_not_echoed : ¬ ∀ (K : Kernel Unit Terminal) (buf len : ℕ) (mem : Bytes)
    (keys : ℕ → BitVec 8) (v₀ : Vga) (r c n : ℕ), PromptAt v₀ r c → (∀ i, keys i ≠ 0) →
    (typed K buf len mem keys v₀ n).isSome →
    (∀ i ≤ n, ∀ l, typed K buf len mem keys v₀ i = some l → c + l.written < 80) →
    EchoesLine K buf len mem keys v₀ r c n := by
  intro hall
  let keys : ℕ → BitVec 8 := fun i => if i = 1 then 0x08 else 0x61
  have hkeys : ∀ i, keys i ≠ 0 := by
    intro i
    by_cases h : i = 1 <;> simp [keys, h]
  have hecho := hall bareKernel 0x800000 127 (fun _ => 0) keys blankVga 0 7 2 blankVga_prompt hkeys
    (by decide) (fun i hi l hl => by
      have := typed_written_le hl
      omega)
  have htyped : (typed bareKernel 0x800000 127 (fun _ => 0) keys blankVga 2).map
      (fun l => (l.written, l.world.vga.cursor)) = some (0, 11) := by decide
  obtain ⟨l, hl, hstate⟩ := Option.map_eq_some_iff.mp htyped
  have hcursor := (hecho 2 (Nat.le_refl 2) l hl).cursor
  rw [(Prod.mk.inj hstate).1, (Prod.mk.inj hstate).2] at hcursor
  exact absurd hcursor (by decide)

end ZeptoOS.Syscall
