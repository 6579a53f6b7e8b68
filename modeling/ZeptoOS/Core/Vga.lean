import Mathlib.Data.BitVec
import Mathlib.Logic.Function.Basic
import ZeptoOS.Lib.Bytes
import ZeptoOS.Lib.Layout

/-!
# Core — Vga

`kernel/core/vga.c`, without the copy of the text that goes to the serial port.  The VGA memory is a
function from the index of a cell, `cursor` such an index, and `touched` a ghost record of the cells
loaded and stored.

The screen is a window on the layout of all that was written since `kcls`
(`console_refines_layout`).
-/

namespace ZeptoOS.Core
open Lib

abbrev Cell := BitVec 16

structure Vga where
  cell : ℕ → Cell
  cursor : ℕ
  touched : List ℕ

/-- `color` -/
def color : BitVec 8 := 0x0F

/-- `((uint16_t)color << 8) | c` -/
def glyph (c : BitVec 8) : Cell := (color.setWidth 16 <<< 8) ||| c.setWidth 16

namespace Vga

/-- `vga_addr[i] = w` -/
def store (v : Vga) (i : ℕ) (w : Cell) : Vga :=
  { v with cell := Function.update v.cell i w, touched := i :: v.touched }

/-- `vga_addr[i] = vga_addr[j]` -/
def move (v : Vga) (i j : ℕ) : Vga :=
  store { v with touched := j :: v.touched } i (v.cell j)

/-- `for (i = 0; i < n; i++) vga_addr[i] = vga_addr[i + 80];` -/
def moveUp (v : Vga) (n : ℕ) : Vga := (List.range n).foldl (fun v i => v.move i (i + 80)) v

/-- `vga_addr[i] = ((uint16_t)color << 8) | ' '` for the `n` cells from `i` on -/
def blanks (v : Vga) (i n : ℕ) : Vga :=
  (List.range' i n).foldl (fun v i => v.store i (glyph 0x20)) v

/-- `scroll` -/
def scroll (v : Vga) : Vga := { (v.moveUp (24 * 80)).blanks (24 * 80) 80 with cursor := 24 * 80 }

/-- `kcls` -/
def kcls (v : Vga) : Vga := { v.blanks 0 (80 * 25) with cursor := 0 }

/-- A turn of the loop of `tty_write`. -/
def ttyPut (v : Vga) (c : BitVec 8) : Vga :=
  if c = 0x0A then
    let row := v.cursor / 80
    if 24 ≤ row then v.scroll else { v with cursor := (row + 1) * 80 }
  else
    let v := { v.store v.cursor (glyph c) with cursor := v.cursor + 1 }
    if 25 * 80 ≤ v.cursor then v.scroll else v

/-- `tty_write`, which is also `kprintf`: up to the end of the string. -/
def ttyWrite (v : Vga) : List (BitVec 8) → Vga
  | [] => v
  | c :: str => if c = 0 then v else (v.ttyPut c).ttyWrite str

/-! ### The loops of stores -/

/-- The cells touched from `v` to `v'` are on the screen. -/
def Within (v v' : Vga) : Prop := ∃ new, v'.touched = new ++ v.touched ∧ ∀ i ∈ new, i < 2000

theorem Within.refl (v : Vga) : Within v v := ⟨[], rfl, fun _ h => (by cases h)⟩

theorem Within.trans {v v₁ v' : Vga} (h : Within v v₁) (h' : Within v₁ v') : Within v v' := by
  obtain ⟨new, e, hnew⟩ := h
  obtain ⟨new', e', hnew'⟩ := h'
  refine ⟨new' ++ new, by rw [e', e, List.append_assoc], fun i hi => ?_⟩
  exact (List.mem_append.mp hi).elim (hnew' i) (hnew i)

theorem within_store {i : ℕ} (hi : i < 2000) (v : Vga) (w : Cell) : Within v (v.store i w) :=
  ⟨[i], rfl, fun _ h => List.mem_singleton.mp h ▸ hi⟩

theorem within_move {i j : ℕ} (hi : i < 2000) (hj : j < 2000) (v : Vga) : Within v (v.move i j) :=
  ⟨[i, j], rfl, fun k h => by
    rcases List.mem_cons.mp h with rfl | h
    · exact hi
    · exact List.mem_singleton.mp h ▸ hj⟩

theorem within_foldl {f : Vga → ℕ → Vga} {is : List ℕ} (hf : ∀ v, ∀ i ∈ is, Within v (f v i))
    (v : Vga) : Within v (is.foldl f v) := by
  induction is generalizing v with
  | nil => exact .refl v
  | cons i is ih =>
      exact (hf v i List.mem_cons_self).trans
        (ih (fun v j hj => hf v j (List.mem_cons_of_mem _ hj)) _)

theorem Within.cursor {v v' : Vga} (h : Within v v') (n : ℕ) :
    Within v { v' with cursor := n } := h

theorem moveUp_within {n : ℕ} (hn : n ≤ 1920) (v : Vga) : Within v (v.moveUp n) :=
  within_foldl (fun v i hi => by
    have := List.mem_range.mp hi
    exact within_move (by omega) (by omega) v) v

theorem blanks_within {i n : ℕ} (hn : i + n ≤ 2000) (v : Vga) : Within v (v.blanks i n) :=
  within_foldl (fun v j hj => by
    have := List.mem_range'_1.mp hj
    exact within_store (by omega) v _) v

theorem moveUp_cell (v : Vga) (k : ℕ) : ∀ n,
    (v.moveUp n).cell k = if k < n then v.cell (k + 80) else v.cell k
  | 0 => rfl
  | n + 1 => by
      have hturn : v.moveUp (n + 1) = (v.moveUp n).move n (n + 80) := by
        rw [moveUp, List.range_succ, List.foldl_append]
        rfl
      have hrest : (v.moveUp n).cell (n + 80) = v.cell (n + 80) := by
        rw [moveUp_cell v _ n, if_neg (by omega)]
      rw [hturn, move, store]
      dsimp only
      rw [hrest]
      by_cases e : k = n
      · subst e
        rw [Function.update_self, if_pos (Nat.lt_succ_self k)]
      · rw [Function.update_of_ne e, moveUp_cell v k n]
        split
        · rw [if_pos (by omega)]
        · rw [if_neg (by omega)]

theorem blanks_cell (v : Vga) (i n k : ℕ) :
    (v.blanks i n).cell k = if i ≤ k ∧ k < i + n then glyph 0x20 else v.cell k := by
  induction n generalizing v i with
  | zero => exact (if_neg (by omega)).symm
  | succ n ih =>
      have hturn : v.blanks i (n + 1) = (v.store i (glyph 0x20)).blanks (i + 1) n := by
        rw [blanks, List.range'_succ]
        rfl
      rw [hturn, ih, store]
      dsimp only
      by_cases e : k = i
      · subst e
        rw [Function.update_self, ite_self, if_pos (by omega)]
      · rw [Function.update_of_ne e]
        split
        · rw [if_pos (by omega)]
        · rw [if_neg (by omega)]

theorem scroll_cell (v : Vga) {k : ℕ} (hk : k < 2000) :
    v.scroll.cell k = if k < 1920 then v.cell (k + 80) else glyph 0x20 := by
  rw [scroll]
  dsimp only
  rw [blanks_cell, moveUp_cell]
  split
  · rw [if_neg (by omega)]
  · rw [if_pos (by omega), if_pos (by omega)]

theorem scroll_within (v : Vga) : Within v v.scroll := by
  have hup : Within v (v.moveUp (24 * 80)) := moveUp_within (by decide) v
  exact (hup.trans (blanks_within (by decide) _)).cursor _

/-! ### The screen as a window -/

/-- The screen of `v` is the end of the layout `L`, with the cursor after it. -/
structure Shows (L : Layout (BitVec 8)) (v : Vga) : Prop where
  cursor : v.cursor = 80 * min L.done.length 24 + L.row.length
  cell : ∀ r < 25, ∀ k < 80,
    v.cell (80 * r + k) = ((L.cell 25 r k).map glyph).getD (glyph 0x20)

variable {L : Layout (BitVec 8)} {v : Vga}

theorem shows_kcls (v : Vga) : Shows .empty v.kcls where
  cursor := rfl
  cell r hr k hk := by
    rw [kcls]
    dsimp only
    rw [blanks_cell, if_pos (by omega), Layout.cell_after]
    · rfl
    · rcases Nat.eq_zero_or_pos r with rfl | hpos
      · exact .inr ⟨rfl, Nat.zero_le k⟩
      · exact .inl (Nat.lt_of_lt_of_le hpos (Nat.le_add_left r _))

/-- A glyph at the cursor. -/
theorem Shows.append (h : Shows L v) (hrow : L.row.length < 80) (c : BitVec 8) :
    Shows (L.append c) { v.store v.cursor (glyph c) with cursor := v.cursor + 1 } where
  cursor := by
    have hlen : (L.append c).row.length = L.row.length + 1 := List.length_append
    have hdone : (L.append c).done = L.done := rfl
    dsimp only
    rw [hlen, hdone, h.cursor, Nat.add_assoc]
  cell r hr k hk := by
    rw [Layout.cell_append, store]
    dsimp only
    by_cases hat : 80 * r + k = v.cursor
    · rw [hat, Function.update_self, if_pos]
      · rfl
      · have := h.cursor
        omega
    · rw [Function.update_of_ne hat, if_neg, h.cell r hr k hk]
      rintro ⟨hr', hk'⟩
      have := h.cursor
      omega

/-- A full screen that scrolls. -/
theorem Shows.scroll (h : Shows L v) (hfull : 24 ≤ L.done.length) : Shows L.endRow v.scroll where
  cursor := by
    have hdone : L.endRow.done.length = L.done.length + 1 := Layout.length_rows
    have hrow : L.endRow.row.length = 0 := rfl
    have hcursor : v.scroll.cursor = 1920 := rfl
    rw [hdone, hrow, hcursor]
    omega
  cell r hr k hk := by
    have hmoves : ¬ L.done.length + 1 < 25 := by omega
    rw [scroll_cell v (by omega), Layout.cell_endRow, if_neg hmoves]
    by_cases hlast : r = 24
    · rw [if_neg (by omega), Layout.cell_after (.inl (by omega))]
      rfl
    · have hnext := h.cell (r + 1) (by omega) k hk
      rw [if_pos (by omega), ← hnext]
      congr 1
      omega

/-- The next row, where there is one. -/
theorem Shows.nextRow (h : Shows L v) (hroom : L.done.length < 24) :
    Shows L.endRow { v with cursor := 80 * (L.done.length + 1) } where
  cursor := by
    have hdone : L.endRow.done.length = L.done.length + 1 := Layout.length_rows
    have hrow : L.endRow.row.length = 0 := rfl
    dsimp only
    rw [hdone, hrow]
    omega
  cell r hr k hk := by
    rw [Layout.cell_endRow, if_pos (by omega)]
    exact h.cell r hr k hk

/-- The layout of a text on rows of 80 columns. -/
abbrev layout (text : List (BitVec 8)) : Layout (BitVec 8) := .ofText 0x0A 80 text

/-- **One character.** -/
theorem Shows.ttyPut (h : Shows L v) (hrow : L.row.length < 80) (c : BitVec 8) :
    Shows (L.put 0x0A 80 c) (v.ttyPut c) := by
  have hcursor := h.cursor
  rw [Layout.put, Vga.ttyPut]
  split
  · dsimp only
    split
    · exact h.scroll (by omega)
    · have hnext : (v.cursor / 80 + 1) * 80 = 80 * (L.done.length + 1) := by omega
      rw [hnext]
      exact h.nextRow (by omega)
  · have happend := h.append hrow c
    have hdone : (L.append c).done = L.done := rfl
    have hlen : (L.append c).row.length = L.row.length + 1 := List.length_append
    dsimp only
    split
    · rename_i hwrap
      split
      · exact happend.scroll (by rw [hdone]; omega)
      · have hnext : v.cursor + 1 = 80 * ((L.append c).done.length + 1) := by
          rw [hdone]
          omega
        have := happend.nextRow (by rw [hdone]; omega)
        rw [← hnext] at this
        exact this
    · rename_i hwrap
      rw [if_neg (by omega)]
      exact happend

theorem ttyPut_within (h : v.cursor < 2000) (c : BitVec 8) : Within v (v.ttyPut c) := by
  have hstore : Within v { v.store v.cursor (glyph c) with cursor := v.cursor + 1 } :=
    within_store h v (glyph c)
  rw [Vga.ttyPut]
  split
  · dsimp only
    split
    · exact scroll_within v
    · exact .refl v
  · dsimp only
    split
    · exact hstore.trans (scroll_within _)
    · exact hstore

theorem Shows.cursor_lt (h : Shows L v) (hrow : L.row.length < 80) : v.cursor < 2000 := by
  have := h.cursor
  omega

/-- The characters of a C string. -/
def chars (str : List (BitVec 8)) : List (BitVec 8) := str.takeWhile (· ≠ 0)

/-- **One string.** -/
theorem Shows.ttyWrite {text : List (BitVec 8)} (h : Shows (layout text) v)
    (str : List (BitVec 8)) :
    Shows (layout (text ++ chars str)) (v.ttyWrite str) ∧ Within v (v.ttyWrite str) := by
  induction str generalizing text v with
  | nil => exact ⟨by rwa [chars, List.takeWhile_nil, List.append_nil], .refl v⟩
  | cons c str ih =>
      rw [Vga.ttyWrite]
      by_cases hc : c = 0
      · rw [if_pos hc, chars, List.takeWhile_cons_of_neg (by simpa using hc), List.append_nil]
        exact ⟨h, .refl v⟩
      · have hrow : (layout text).row.length < 80 := Layout.row_ofText_lt (by decide) text
        have hput : Shows (layout (text ++ [c])) (v.ttyPut c) := by
          rw [layout, Layout.ofText_concat]
          exact h.ttyPut hrow c
        obtain ⟨hshows, hwithin⟩ := ih hput
        rw [if_neg hc, chars, List.takeWhile_cons_of_pos (by simpa using hc)]
        rw [List.append_assoc] at hshows
        exact ⟨hshows, (ttyPut_within (h.cursor_lt hrow) c).trans hwithin⟩

/-- From the cursor on the screen is blank. -/
theorem Shows.blank (h : Shows L v) {i : ℕ} (hlo : v.cursor ≤ i) (hhi : i < 2000) :
    v.cell i = glyph 0x20 := by
  have hcell := h.cell (i / 80) (by omega) (i % 80) (by omega)
  have hcursor := h.cursor
  rw [Layout.cell_after (by omega), Nat.div_add_mod] at hcell
  exact hcell

theorem Shows.ttyWrites {text : List (BitVec 8)} (h : Shows (layout text) v)
    (strs : List (List (BitVec 8))) :
    Shows (layout (text ++ strs.flatMap chars)) (strs.foldl Vga.ttyWrite v) ∧
      Within v (strs.foldl Vga.ttyWrite v) := by
  induction strs generalizing text v with
  | nil => exact ⟨by rwa [List.flatMap_nil, List.append_nil], .refl v⟩
  | cons str strs ih =>
      obtain ⟨hstr, hwithin⟩ := h.ttyWrite str
      obtain ⟨hrest, hwithin'⟩ := ih hstr
      rw [List.append_assoc] at hrest
      exact ⟨hrest, hwithin.trans hwithin'⟩

/-- **The console refines the layout** of the whole text: after `kcls` and any strings the cursor is
on the screen, no other cell was touched on the way, the screen shows the last 25 rows of the
layout with the cursor at its end, and from the cursor on it is blank. -/
theorem console_refines_layout (v : Vga) (strs : List (List (BitVec 8))) :
    (strs.foldl Vga.ttyWrite v.kcls).cursor < 2000 ∧
    Within v (strs.foldl Vga.ttyWrite v.kcls) ∧
    Shows (layout (strs.flatMap chars)) (strs.foldl Vga.ttyWrite v.kcls) ∧
    ∀ i, (strs.foldl Vga.ttyWrite v.kcls).cursor ≤ i → i < 2000 →
      (strs.foldl Vga.ttyWrite v.kcls).cell i = glyph 0x20 := by
  have hempty : Shows (layout []) v.kcls := shows_kcls v
  have hkcls : Within v v.kcls := (blanks_within (by decide) v).cursor 0
  obtain ⟨hshows, hwithin⟩ := hempty.ttyWrites strs
  rw [List.nil_append] at hshows
  have hrow : (layout (strs.flatMap chars)).row.length < 80 :=
    Layout.row_ofText_lt (by decide) _
  exact ⟨hshows.cursor_lt hrow, hkcls.trans hwithin, hshows, fun i => hshows.blank⟩

end Vga

end ZeptoOS.Core
