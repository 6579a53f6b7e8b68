import Mathlib.Logic.Basic
import Mathlib.Data.List.Basic
import ZeptoOS.Lib.Store

/-!
# Lib — Radix

Radix tables in a word memory: a table is a block of slots, a slot of an inner table holds a link
to the next table or nothing, a slot of a last-level table holds a leaf.  Tables are made on
demand, from a pool of blocks, and never given back.

`next` and `descend` are the walkers that may make tables, `walk` and `lookup` the pure reading
of a memory.  Nothing in a memory says which block is a table of which level, so the results are
about a memory with a ghost typing (`Typed`): a typed table has one prefix, the list of indices
under which it hangs, and one owner, the root it was made for.  Two paths through typed tables
reach one slot only if they are one path, which is what makes a leaf store a finite-map update
(`lookup_set`).  Sharing between roots is allowed, at the price of the owner: a root may point at
tables of its own and at tables of the base root.

A set of *foreign* prefixes marks the parts of the index space that are not managed as tables.
-/

namespace ZeptoOS.Lib

/-- The format of a table: where its slots are, and what a word in a slot says. -/
structure Format (A W P I : Type*) where
  /-- The pointer that means failure. -/
  null : P
  zero : W
  slot : P → I → A
  indices : List I
  present : W → Bool
  /-- A word that ends the walk early, at a large block. -/
  large : W → Bool
  target : W → P
  /-- The word that links a new table. -/
  link : P → W
  Valid : P → Prop
  mem_indices : ∀ i, i ∈ indices
  slot_inj : ∀ {p q i j}, Valid p → Valid q → slot p i = slot q j → p = q ∧ i = j
  ne_null : ∀ {p}, Valid p → p ≠ null
  present_zero : present zero = false
  present_link : ∀ {p}, Valid p → present (link p) = true
  large_link : ∀ {p}, Valid p → large (link p) = false
  target_link : ∀ {p}, Valid p → target (link p) = p

/-- A pool of blocks: `take` gives out a free block and marks it. -/
structure Pool (S P : Type*) where
  take : S → Option (P × S)
  Free : S → P → Prop
  free_of_take : ∀ {s s' p}, take s = some (p, s') → Free s p
  free_take_iff : ∀ {s s' p q}, take s = some (p, s') → (Free s' q ↔ Free s q ∧ q ≠ p)

/-- The next `n` takes succeed. -/
def Pool.Has {S P : Type*} (B : Pool S P) : ℕ → S → Prop
  | 0, _ => True
  | n + 1, s => ∃ p s', B.take s = some (p, s') ∧ B.Has n s'

theorem Pool.Has.pred {S P : Type*} {B : Pool S P} :
    ∀ {n : ℕ} {s : S}, B.Has (n + 1) s → B.Has n s
  | 0, _, _ => trivial
  | _ + 1, _, ⟨p, s', htake, h⟩ => ⟨p, s', htake, h.pred⟩

/-- A memory and the state of the pool its tables come from. -/
structure Heap (A W S : Type*) where
  mem : Store A W
  pool : S

/-- How an index space is managed: the number of levels, the root whose tables may be shared,
and the prefixes under which the words are not tables. -/
structure Plan (I O : Type*) where
  depth : ℕ
  base : O
  Foreign : List I → Prop

/-- No extension of `π` along `is` is foreign. -/
def Plan.Managed {I O : Type*} (G : Plan I O) : List I → List I → Prop
  | _, [] => True
  | π, i :: is => ¬ G.Foreign (π ++ [i]) ∧ G.Managed (π ++ [i]) is

variable {A W P I S O : Type*}

theorem Plan.Managed.take {G : Plan I O} :
    ∀ {π is : List I} (k : ℕ), G.Managed π is → G.Managed π (is.take k)
  | _, _, 0, _ => trivial
  | _, [], _ + 1, h => h
  | _, _ :: _, k + 1, h => ⟨h.1, h.2.take k⟩

namespace Format

/-! ### The operations -/

section Operations

variable (F : Format A W P I) (B : Pool S P)

/-- The word in slot `i` of table `p`. -/
def entry (m : Store A W) (p : P) (i : I) : W := m.cell (F.slot p i)

/-- The table `is` leads to from `p`, over links that are present and not large. -/
def walk (m : Store A W) (p : P) : List I → Option P
  | [] => some p
  | i :: is =>
      if F.present (F.entry m p i) ∧ F.large (F.entry m p i) = false then
        walk m (F.target (F.entry m p i)) is
      else none

/-- The leaf at `is`, `i` below `p`; zero where there is no table. -/
def lookup (m : Store A W) (p : P) (is : List I) (i : I) : W :=
  match F.walk m p is with
  | none => F.zero
  | some q => F.entry m q i

variable [DecidableEq A]

/-- Zero every slot of `p`. -/
def clear (m : Store A W) (p : P) : Store A W :=
  m.setAll (F.slot p) (fun _ => F.zero) F.indices

/-- One step down from slot `i` of `p`, making the table there if it is absent. -/
def next (h : Heap A W S) (p : P) (i : I) (create : Bool) : Option (P × Heap A W S) :=
  if F.present (F.entry h.mem p i) then
    some (F.target (F.entry h.mem p i), h)
  else if create then
    (B.take h.pool).map fun x =>
      let m := (F.clear h.mem x.1).set (F.slot p i) (F.link x.1)
      (F.target (F.entry m p i), ⟨m, x.2⟩)
  else some (F.null, h)

/-- A walk down `is` that stops at a null table. -/
def descend [DecidableEq P] (h : Heap A W S) (p : P) : List I → Bool → Option (P × Heap A W S)
  | [], _ => some (p, h)
  | i :: is, create =>
      (F.next B h p i create).bind fun x =>
        if x.1 = F.null then some x else descend x.2 x.1 is create

end Operations

variable {F : Format A W P I} {B : Pool S P}

section Stores

variable [DecidableEq A]

theorem entry_set_same (m : Store A W) (p : P) (i : I) (w : W) :
    F.entry (m.set (F.slot p i) w) p i = w :=
  Store.set_cell_same _ _ _

theorem entry_set_other {m : Store A W} {p q : P} {i j : I} {w : W} (hp : F.Valid p)
    (hq : F.Valid q) (h : q ≠ p ∨ j ≠ i) :
    F.entry (m.set (F.slot p i) w) q j = F.entry m q j :=
  Store.set_cell_other fun e => by
    obtain ⟨rfl, rfl⟩ := F.slot_inj hq hp e
    exact h.elim (fun h => h rfl) (fun h => h rfl)

theorem entry_clear_same {m : Store A W} {p : P} (hp : F.Valid p) (i : I) :
    F.entry (F.clear m p) p i = F.zero :=
  Store.setAll_cell_slot (fun _ _ e => (F.slot_inj hp hp e).2) (F.mem_indices i)

theorem entry_clear_other {m : Store A W} {p q : P} (hp : F.Valid p) (hq : F.Valid q)
    (h : q ≠ p) (i : I) : F.entry (F.clear m p) q i = F.entry m q i :=
  Store.setAll_cell_other fun _ _ e => h (F.slot_inj hq hp e).1

end Stores

section Progress

variable [DecidableEq A]

/-- A step down takes one block at most. -/
theorem next_some {h : Heap A W S} {n : ℕ} (hB : B.Has (n + 1) h.pool) (p : P) (i : I) :
    ∃ q h', F.next B h p i true = some (q, h') ∧ B.Has n h'.pool := by
  obtain ⟨q, s', htake, hs'⟩ := hB
  by_cases hp : F.present (F.entry h.mem p i)
  · refine ⟨_, h, if_pos hp, ?_⟩
    exact Pool.Has.pred ⟨q, s', htake, hs'⟩
  · rw [Format.next, if_neg hp, if_pos rfl, htake]
    exact ⟨_, _, rfl, hs'⟩

/-- **A walk that makes tables** fails only if the pool runs out. -/
theorem descend_some [DecidableEq P] {is : List I} :
    ∀ {h : Heap A W S}, B.Has is.length h.pool → ∀ p,
      ∃ q h', F.descend B h p is true = some (q, h') := by
  induction is with
  | nil => exact fun _ p => ⟨p, _, rfl⟩
  | cons i is ih =>
      intro h hB p
      obtain ⟨q, h', hn, hB'⟩ := next_some (F := F) hB p i
      rw [Format.descend, hn, Option.bind_some]
      split
      · exact ⟨q, h', rfl⟩
      · exact ih hB' q

/-- A step down frees no block. -/
theorem next_free {h h' : Heap A W S} {p q r : P} {i : I} {create : Bool}
    (hn : F.next B h p i create = some (q, h')) (hr : B.Free h'.pool r) : B.Free h.pool r := by
  rw [Format.next] at hn
  split at hn
  · cases hn
    exact hr
  · split at hn
    · obtain ⟨⟨t, pool⟩, htake, e⟩ := Option.map_eq_some_iff.mp hn
      cases e
      exact ((B.free_take_iff htake).mp hr).1
    · cases hn
      exact hr

theorem descend_free [DecidableEq P] {is : List I} {create : Bool} {q r : P} {h' : Heap A W S} :
    ∀ {h : Heap A W S} {p : P}, F.descend B h p is create = some (q, h') → B.Free h'.pool r →
      B.Free h.pool r := by
  induction is with
  | nil =>
      intro h p hd hr
      cases hd
      exact hr
  | cons i is ih =>
      intro h p hd hr
      simp only [Format.descend, Option.bind_eq_some_iff] at hd
      obtain ⟨⟨t, h₁⟩, hn, hd⟩ := hd
      refine next_free hn ?_
      split at hd
      · cases hd
        exact hr
      · exact ih hd hr

end Progress

/-! ### Walks -/

theorem walk_append {m : Store A W} {p q : P} {is : List I} (h : F.walk m p is = some q)
    (js : List I) : F.walk m p (is ++ js) = F.walk m q js := by
  induction is generalizing p with
  | nil => cases h; rfl
  | cons i is ih =>
      simp only [walk] at h
      split at h
      · rename_i hp
        simp only [List.cons_append, walk, if_pos hp, ih h]
      · cases h

theorem walk_cons {m : Store A W} {p : P} {i : I} (hp : F.present (F.entry m p i))
    (hl : F.large (F.entry m p i) = false) (is : List I) :
    F.walk m p (i :: is) = F.walk m (F.target (F.entry m p i)) is := by
  simp only [walk, if_pos (And.intro hp hl)]

/-- A walk depends on its first table only through the first entry. -/
theorem walk_congr_head {m : Store A W} {p q : P} {i : I}
    (h : F.entry m p i = F.entry m q i) (is : List I) :
    F.walk m p (i :: is) = F.walk m q (i :: is) := by
  simp only [walk, h]

theorem walk_absent {m : Store A W} {p : P} {i : I} (hp : F.present (F.entry m p i) = false)
    (is : List I) : F.walk m p (i :: is) = none := by
  simp [walk, hp]

theorem lookup_absent {m : Store A W} {p : P} {i : I} (hp : F.present (F.entry m p i) = false)
    (is : List I) (j : I) : F.lookup m p (i :: is) j = F.zero := by
  simp only [lookup, walk_absent hp]

theorem lookup_cons {m : Store A W} {p : P} {i : I} (hp : F.present (F.entry m p i))
    (hl : F.large (F.entry m p i) = false) (is : List I) (j : I) :
    F.lookup m p (i :: is) j = F.lookup m (F.target (F.entry m p i)) is j := by
  simp only [lookup, walk_cons hp hl]

/-- Below a zeroed table there is nothing. -/
theorem lookup_zeroed {m : Store A W} {p : P} (hz : ∀ i, F.entry m p i = F.zero) :
    ∀ (is : List I) (j : I), F.lookup m p is j = F.zero
  | [], j => hz j
  | i :: is, j => lookup_absent (by rw [hz i]; exact F.present_zero) is j

/-! ### The ghost typing -/

/-- `c` types the tables of `h`: a table typed `(π, o)` hangs under the indices `π` and was made
for `o`; it is a block of its own, not in the pool; and every link out of it that is not foreign
leads to a table typed one index further down.  A root may also link tables of the base root. -/
structure Typed (F : Format A W P I) (B : Pool S P) (G : Plan I O)
    (c : P → Option (List I × O)) (h : Heap A W S) : Prop where
  valid : ∀ {p x}, c p = some x → F.Valid p
  busy : ∀ {p x}, c p = some x → ¬ B.Free h.pool p
  short : ∀ {p x}, c p = some x → x.1.length < G.depth
  edge : ∀ {p x i}, c p = some x → x.1.length + 1 < G.depth → ¬ G.Foreign (x.1 ++ [i]) →
    F.present (F.entry h.mem p i) → F.large (F.entry h.mem p i) = false ∧
      ∃ o, c (F.target (F.entry h.mem p i)) = some (x.1 ++ [i], o) ∧
        (o = x.2 ∨ x.1 = [] ∧ o = G.base)
  pool : ∀ {p}, B.Free h.pool p → F.Valid p

section Typed

variable {G : Plan I O} {c c' : P → Option (List I × O)} {h h' : Heap A W S}

/-- A typed table is no free block. -/
theorem Typed.ne_free (T : Typed F B G c h) {p q : P} {x : List I × O} (hp : c p = some x)
    (hq : B.Free h.pool q) : p ≠ q :=
  fun e => T.busy hp (e ▸ hq)

theorem Typed.free_eq_none (T : Typed F B G c h) {q : P} (hq : B.Free h.pool q) : c q = none := by
  cases hc : c q with
  | none => rfl
  | some x => exact absurd rfl (T.ne_free hc hq)

/-- Where a walk from a typed table ends: at the table typed with the path walked. -/
theorem Typed.walk (T : Typed F B G c h) {is : List I} :
    ∀ {p q : P} {π : List I} {o : O}, c p = some (π, o) → G.Managed π is →
      π.length + is.length < G.depth → F.walk h.mem p is = some q →
      ∃ o', c q = some (π ++ is, o') ∧ (o' = o ∨ π = [] ∧ o' = G.base) := by
  induction is with
  | nil =>
      intro p q π o hp _ _ hw
      cases hw
      exact ⟨o, by rw [List.append_nil]; exact hp, .inl rfl⟩
  | cons i is ih =>
      intro p q π o hp hm hlen hw
      simp only [List.length_cons] at hlen
      simp only [Format.walk] at hw
      split at hw
      · rename_i hpr
        obtain ⟨-, o₁, ht, ho₁⟩ := T.edge (i := i) hp (by simp only; omega) hm.1 hpr.1
        obtain ⟨o', hq, ho'⟩ := ih ht hm.2 (by simp; omega) hw
        have ho' : o' = o₁ := ho'.resolve_right fun e => by simp at e
        refine ⟨o', ?_, ho' ▸ ho₁⟩
        simpa using hq
      · cases hw

/-- **Leaf lookups read typed tables only**: memories that agree on the tables of `o` and of the
base root give the same leaves below a table of `o`. -/
theorem Typed.lookup_congr (T : Typed F B G c h) {m : Store A W} {is : List I} {j : I} :
    ∀ {p : P} {π : List I} {o : O}, c p = some (π, o) → G.Managed π is →
      π.length + is.length < G.depth →
      (∀ {q x} (k : I), c q = some x → x.2 = o ∨ x.2 = G.base →
        F.entry m q k = F.entry h.mem q k) →
      F.lookup m p is j = F.lookup h.mem p is j := by
  induction is with
  | nil => intro p π o hp _ _ hag; exact hag j hp (.inl rfl)
  | cons i is ih =>
      intro p π o hp hm hlen hag
      simp only [List.length_cons] at hlen
      have he : F.entry m p i = F.entry h.mem p i := hag i hp (.inl rfl)
      cases hpr : F.present (F.entry h.mem p i) with
      | false => rw [lookup_absent (he ▸ hpr), lookup_absent hpr]
      | true =>
          obtain ⟨hl, o₁, ht, ho₁⟩ := T.edge (i := i) hp (by simp only; omega) hm.1 hpr
          rw [lookup_cons (he ▸ hpr) (he ▸ hl), lookup_cons hpr hl, he]
          refine ih ht hm.2 (by simp; omega) fun k hq ho => hag k hq ?_
          rcases ho₁ with rfl | ⟨-, rfl⟩
          · exact ho
          · exact .inr (ho.elim id id)

/-- Below a table that is no root there are tables of its owner only. -/
theorem Typed.lookup_congr_own (T : Typed F B G c h) {m : Store A W} {is : List I} {j : I} :
    ∀ {p : P} {π : List I} {o : O}, c p = some (π, o) → π ≠ [] → G.Managed π is →
      π.length + is.length < G.depth →
      (∀ {q x} (k : I), c q = some x → x.2 = o → F.entry m q k = F.entry h.mem q k) →
      F.lookup m p is j = F.lookup h.mem p is j := by
  induction is with
  | nil => intro p π o hp _ _ _ hag; exact hag j hp rfl
  | cons i is ih =>
      intro p π o hp hπ hm hlen hag
      simp only [List.length_cons] at hlen
      have he : F.entry m p i = F.entry h.mem p i := hag i hp rfl
      cases hpr : F.present (F.entry h.mem p i) with
      | false => rw [lookup_absent (he ▸ hpr), lookup_absent hpr]
      | true =>
          obtain ⟨hl, o₁, ht, ho₁⟩ := T.edge (i := i) hp (by simp only; omega) hm.1 hpr
          have ho₁ : o₁ = o := ho₁.resolve_right fun h => hπ h.1
          rw [lookup_cons (he ▸ hpr) (he ▸ hl), lookup_cons hpr hl, he]
          exact ih ht (by simp) hm.2 (by simp; omega) fun k hq ho => hag k hq (ho.trans ho₁)

/-! ### Making tables -/

/-- Slot `i` of `p` is empty, or leads to a table of `o`. -/
def Private (F : Format A W P I) (c : P → Option (List I × O)) (m : Store A W) (p : P) (i : I)
    (o : O) : Prop :=
  F.present (F.entry m p i) → ∀ x, c (F.target (F.entry m p i)) = some x → x.2 = o

/-- What a walk down `is` from `p`, typed `(π, o)`, may have done when it ends at `q`: it only
linked zeroed blocks of the pool into absent slots, so every leaf reads as before; the tables on
the way are all of the owner `o'` of `q`; and it stored only into tables on the way. -/
structure Descent (F : Format A W P I) (B : Pool S P) (G : Plan I O)
    (c : P → Option (List I × O)) (h : Heap A W S) (p : P) (π : List I) (o : O) (is : List I)
    (c' : P → Option (List I × O)) (h' : Heap A W S) (q : P) (o' : O) : Prop where
  typed : Typed F B G c' h'
  grows : ∀ {r x}, c r = some x → c' r = some x
  table : c' q = some (π ++ is, o')
  owner : o' = o ∨ π = [] ∧ o' = G.base
  own : ∀ {i js}, is = i :: js → Private F c h.mem p i o → o' = o
  walk : F.walk h'.mem p is = some q
  lookup : ∀ {r x js} (j : I), c r = some x → G.Managed x.1 js →
    x.1.length + js.length + 1 = G.depth → F.lookup h'.mem r js j = F.lookup h.mem r js j
  keeps : ∀ {r x} (j : I), c r = some x →
    x.1.length + 1 = G.depth ∨ F.present (F.entry h.mem r j) →
    F.entry h'.mem r j = F.entry h.mem r j
  linked : ∀ {r x} (j : I), c r = some x → x.1.length + 1 < G.depth →
    F.present (F.entry h.mem r j) = false → F.present (F.entry h'.mem r j) →
    c' (F.target (F.entry h'.mem r j)) = some (x.1 ++ [j], x.2)
  frame : ∀ {r x} (j : I), c r = some x → x.2 ≠ o → x.2 ≠ o' →
    F.entry h'.mem r j = F.entry h.mem r j
  stores : ∃ new, h'.mem.written = new ++ h.mem.written ∧ ∀ a ∈ new, ∃ k r j,
    F.walk h'.mem p (is.take k) = some r ∧ a = F.slot r j

theorem Descent.nil (T : Typed F B G c h) {p : P} {π : List I} {o : O}
    (hp : c p = some (π, o)) : Descent F B G c h p π o [] c h p o where
  typed := T
  grows := id
  table := by rw [List.append_nil]; exact hp
  owner := .inl rfl
  own e := by cases e
  walk := rfl
  lookup _ _ _ _ := rfl
  keeps _ _ _ := rfl
  linked _ _ _ ha hp := by rw [ha] at hp; cases hp
  frame _ _ _ _ := rfl
  stores := ⟨[], rfl, fun _ ha => by cases ha⟩

/-- A walk in the memory before a descent is a walk after it. -/
theorem Descent.walk_keeps {p : P} {π : List I} {o : O} {is : List I} {q : P} {o' : O}
    (T : Typed F B G c h) (D : Descent F B G c h p π o is c' h' q o') {js : List I} :
    ∀ {r s : P} {ρ : List I} {u : O}, c r = some (ρ, u) → G.Managed ρ js →
      ρ.length + js.length < G.depth → F.walk h.mem r js = some s →
      F.walk h'.mem r js = some s := by
  induction js with
  | nil => intro r s ρ u _ _ _ hw; exact hw
  | cons j js ih =>
      intro r s ρ u hr hm hlen hw
      simp only [List.length_cons] at hlen
      simp only [Format.walk] at hw
      split at hw
      · rename_i hpr
        obtain ⟨-, u', ht, -⟩ := T.edge (i := j) hr (by simp only; omega) hm.1 hpr.1
        have he := D.keeps j hr (.inr hpr.1)
        rw [Format.walk_cons (he ▸ hpr.1) (he ▸ hpr.2), he]
        exact ih ht hm.2 (by simp; omega) hw
      · cases hw

theorem Descent.trans {p p₁ q : P} {π : List I} {i : I} {is : List I} {o o₁ o' : O}
    {c₁ : P → Option (List I × O)} {h₁ : Heap A W S} (hp : c p = some (π, o))
    (hm : ¬ G.Foreign (π ++ [i])) (hlen : π.length + 1 < G.depth)
    (D₁ : Descent F B G c h p π o [i] c₁ h₁ p₁ o₁)
    (D₂ : Descent F B G c₁ h₁ p₁ (π ++ [i]) o₁ is c' h' q o') :
    Descent F B G c h p π o (i :: is) c' h' q o' := by
  have ho' : o' = o₁ := D₂.owner.resolve_right fun e => by simp at e
  have hw₁ : F.walk h'.mem p [i] = some p₁ :=
    D₂.walk_keeps D₁.typed (D₁.grows hp) ⟨hm, trivial⟩ (by simpa using hlen) D₁.walk
  have hw : ∀ js, F.walk h'.mem p (i :: js) = F.walk h'.mem p₁ js :=
    fun js => walk_append hw₁ js
  refine
    { typed := D₂.typed
      grows := fun hr => D₂.grows (D₁.grows hr)
      table := by simpa using D₂.table
      owner := ho' ▸ D₁.owner
      own := fun e ha => by cases e; exact ho'.trans (D₁.own rfl ha)
      walk := (hw is).trans D₂.walk
      lookup := fun j hr hmr hl =>
        (D₂.lookup j (D₁.grows hr) hmr hl).trans (D₁.lookup j hr hmr hl)
      keeps := fun j hr hk => ?_
      linked := fun j hr hl ha hpr => ?_
      frame := fun j hr ho ho'' => ?_
      stores := ?_ }
  · have h₁₀ := D₁.keeps j hr hk
    exact (D₂.keeps j (D₁.grows hr) (hk.imp id fun hk => h₁₀ ▸ hk)).trans h₁₀
  · cases hpr₁ : F.present (F.entry h₁.mem _ j) with
    | false => exact D₂.linked j (D₁.grows hr) hl hpr₁ hpr
    | true =>
        rw [D₂.keeps j (D₁.grows hr) (.inr hpr₁)]
        exact D₂.grows (D₁.linked j hr hl ha hpr₁)
  · have ho₁ := ho' ▸ ho''
    exact (D₂.frame j (D₁.grows hr) ho₁ ho'').trans (D₁.frame j hr ho ho₁)
  · obtain ⟨new₁, e₁, s₁⟩ := D₁.stores
    obtain ⟨new₂, e₂, s₂⟩ := D₂.stores
    refine ⟨new₂ ++ new₁, by rw [e₂, e₁, List.append_assoc], fun a ha => ?_⟩
    rcases List.mem_append.mp ha with ha | ha
    · obtain ⟨k, r, j, hk, rfl⟩ := s₂ a ha
      exact ⟨k + 1, r, j, (hw _).trans hk, rfl⟩
    · obtain ⟨k, r, j, hk, rfl⟩ := s₁ a ha
      -- the tables of the first step are `p` and `p₁`
      rcases k with _ | k
      · exact ⟨0, r, j, hk, rfl⟩
      · have hr : p₁ = r := by
          have hk' : F.walk h₁.mem p [i] = some r := by simpa using hk
          rw [D₁.walk] at hk'
          exact Option.some.inj hk'
        exact ⟨1, r, j, by simpa [hr] using hw₁, rfl⟩

section Making

variable [DecidableEq A]

theorem entry_link_same {m : Store A W} {p q : P} {i : I} :
    F.entry ((F.clear m q).set (F.slot p i) (F.link q)) p i = F.link q :=
  entry_set_same _ _ _ _

theorem entry_link_new {m : Store A W} {p q : P} {i : I} (hp : F.Valid p) (hq : F.Valid q)
    (h : q ≠ p) (j : I) : F.entry ((F.clear m q).set (F.slot p i) (F.link q)) q j = F.zero :=
  (entry_set_other hp hq (.inl h)).trans (entry_clear_same hq j)

theorem entry_link_other {m : Store A W} {p q r : P} {i j : I} (hp : F.Valid p)
    (hq : F.Valid q) (hr : F.Valid r) (h : r ≠ q) (hpi : r ≠ p ∨ j ≠ i) :
    F.entry ((F.clear m q).set (F.slot p i) (F.link q)) r j = F.entry m r j :=
  (entry_set_other hp hr hpi).trans (entry_clear_other hq hr h j)

/-- A leaf reads the same after a zeroed block is linked into an absent inner slot. -/
theorem Typed.lookup_link (T : Typed F B G c h) {p q : P} {π : List I} {o : O} {i : I}
    (hp : c p = some (π, o)) (hlen : π.length + 1 < G.depth)
    (ha : F.present (F.entry h.mem p i) = false) (hq : F.Valid q) (hnew : c q = none)
    {js : List I} {j : I} :
    ∀ {r : P} {x : List I × O}, c r = some x → G.Managed x.1 js →
      x.1.length + js.length + 1 = G.depth →
      F.lookup ((F.clear h.mem q).set (F.slot p i) (F.link q)) r js j =
        F.lookup h.mem r js j := by
  have hpv := T.valid hp
  have hne : ∀ {r x}, c r = some x → r ≠ q := fun hr e => by rw [e, hnew] at hr; cases hr
  induction js with
  | nil =>
      intro r x hr _ hl
      refine entry_link_other hpv hq (T.valid hr) (hne hr) (.inl fun e => ?_)
      -- `r` is a last-level table and `p` is not
      rw [e, hp] at hr
      cases hr
      simp at hl
      omega
  | cons k js ih =>
      intro r x hr hm hl
      simp only [List.length_cons] at hl
      by_cases hpi : r = p ∧ k = i
      · obtain ⟨rfl, rfl⟩ := hpi
        have hlink := entry_link_same (F := F) (m := h.mem) (p := r) (q := q) (i := k)
        rw [lookup_absent ha, lookup_cons (by rw [hlink]; exact F.present_link hq)
          (by rw [hlink]; exact F.large_link hq), hlink, F.target_link hq]
        exact lookup_zeroed (entry_link_new hpv hq (hne hr).symm) js j
      · have he := entry_link_other (j := k) (i := i) (m := h.mem) hpv hq (T.valid hr) (hne hr)
          (by tauto)
        cases hpr : F.present (F.entry h.mem r k) with
        | false => rw [lookup_absent (he ▸ hpr), lookup_absent hpr]
        | true =>
            obtain ⟨hlg, o₁, ht, -⟩ := T.edge (i := k) hr (by omega) hm.1 hpr
            rw [lookup_cons (he ▸ hpr) (he ▸ hlg), lookup_cons hpr hlg, he]
            exact ih ht hm.2 (by simp; omega)

omit [DecidableEq A] in
/-- The typing with a block of the pool typed `y`, where every old link is kept or leads to it. -/
theorem Typed.extend [DecidableEq P] (T : Typed F B G c h) {q : P} {y : List I × O} {pool : S}
    {m : Store A W} (hq : B.take h.pool = some (q, pool)) (hy : y.1.length < G.depth)
    (hnew : ∀ {i}, y.1.length + 1 < G.depth → ¬ G.Foreign (y.1 ++ [i]) →
      F.present (F.entry m q i) → F.large (F.entry m q i) = false ∧
        ∃ o, (if F.target (F.entry m q i) = q then some y else c (F.target (F.entry m q i))) =
          some (y.1 ++ [i], o) ∧ (o = y.2 ∨ y.1 = [] ∧ o = G.base))
    (hold : ∀ {r x} (i : I), c r = some x → x.1.length + 1 < G.depth →
      F.entry m r i = F.entry h.mem r i ∨
        F.large (F.entry m r i) = false ∧ F.target (F.entry m r i) = q ∧ y = (x.1 ++ [i], x.2)) :
    Typed F B G (fun r => if r = q then some y else c r) ⟨m, pool⟩ where
  valid {r x} hr := by
    by_cases e : r = q
    · exact e ▸ T.pool (B.free_of_take hq)
    · exact T.valid (if_neg e ▸ hr)
  busy {r x} hr hf := by
    obtain ⟨hf, e⟩ := (B.free_take_iff hq).mp hf
    exact T.busy (if_neg e ▸ hr) hf
  short {r x} hr := by
    by_cases e : r = q
    · rw [if_pos e] at hr
      cases hr
      exact hy
    · exact T.short (if_neg e ▸ hr)
  edge {r x i} hr hl hm hpr := by
    by_cases e : r = q
    · subst e
      rw [if_pos rfl] at hr
      cases hr
      exact hnew hl hm hpr
    · rw [if_neg e] at hr
      rcases hold i hr hl with he | ⟨hlg, ht, rfl⟩
      · simp only [he] at hpr ⊢
        obtain ⟨hlg, o₁, ht, ho₁⟩ := T.edge hr hl hm hpr
        exact ⟨hlg, o₁, by rw [if_neg (T.ne_free ht (B.free_of_take hq))]; exact ht, ho₁⟩
      · exact ⟨hlg, x.2, by rw [ht, if_pos rfl], .inl rfl⟩
  pool hf := T.pool ((B.free_take_iff hq).mp hf).1

/-- The typing after a block of the pool is linked into an absent inner slot. -/
theorem Typed.link [DecidableEq P] (T : Typed F B G c h) {p q : P} {π : List I} {o : O} {i : I}
    {pool : S} (hp : c p = some (π, o)) (hlen : π.length + 1 < G.depth)
    (hq : B.take h.pool = some (q, pool)) :
    Typed F B G (fun r => if r = q then some (π ++ [i], o) else c r)
      ⟨(F.clear h.mem q).set (F.slot p i) (F.link q), pool⟩ := by
  have hfree := B.free_of_take hq
  have hqv := T.pool hfree
  have hpv := T.valid hp
  refine T.extend hq (by simpa using hlen) (fun {j} _ _ hpr => ?_) fun {r x} j hr _ => ?_
  · -- the new block is empty
    rw [entry_link_new hpv hqv (T.ne_free hp hfree).symm, F.present_zero] at hpr
    cases hpr
  · by_cases hpj : r = p ∧ j = i
    · obtain ⟨rfl, rfl⟩ := hpj
      rw [hp] at hr
      cases hr
      rw [entry_link_same, F.target_link hqv]
      exact .inr ⟨F.large_link hqv, rfl, rfl⟩
    · exact .inl (entry_link_other hpv hqv (T.valid hr) (T.ne_free hr hfree) (by tauto))

omit [DecidableEq A] in
/-- The typing after a block of the pool, filled in any way, is linked into a slot of a table above
the last level. -/
theorem Typed.attach [DecidableEq P] (T : Typed F B G c h) {p q : P} {π : List I} {o : O} {i : I}
    {pool : S} {m : Store A W} (hp : c p = some (π, o)) (hlen : π.length + 2 = G.depth)
    (hq : B.take h.pool = some (q, pool)) (hlarge : F.large (F.entry m p i) = false)
    (htarget : F.target (F.entry m p i) = q)
    (hother : ∀ {r x} (j : I), c r = some x → x.1.length + 1 < G.depth → r ≠ p ∨ j ≠ i →
      F.entry m r j = F.entry h.mem r j) :
    Typed F B G (fun r => if r = q then some (π ++ [i], o) else c r) ⟨m, pool⟩ := by
  have hlast : (π ++ [i]).length + 1 = G.depth := by
    rw [List.length_append, List.length_singleton]
    omega
  refine T.extend hq (by simp only; omega) (fun {j} hl _ _ => ?_) fun {r x} j hr hl => ?_
  · -- the new block is of the last level
    simp only at hl
    omega
  · by_cases hpj : r = p ∧ j = i
    · obtain ⟨rfl, rfl⟩ := hpj
      rw [hp] at hr
      cases hr
      exact .inr ⟨hlarge, htarget, rfl⟩
    · exact .inl (hother j hr hl (by tauto))

omit [DecidableEq A] in
/-- One step down to a table that is there. -/
theorem Typed.next_present (T : Typed F B G c h) {p : P} {π : List I} {o : O}
    {i : I} (hp : c p = some (π, o)) (hlen : π.length + 1 < G.depth) (hm : ¬ G.Foreign (π ++ [i]))
    (ha : F.present (F.entry h.mem p i) = true) :
    ∃ o', Descent F B G c h p π o [i] c h (F.target (F.entry h.mem p i)) o' := by
  obtain ⟨hlg, o', ht, ho'⟩ := T.edge hp hlen hm ha
  exact ⟨o',
    { typed := T
      grows := id
      table := ht
      owner := ho'
      own := fun e hpv => by cases e; exact hpv ha _ ht
      walk := walk_cons ha hlg []
      lookup := fun _ _ _ _ => rfl
      keeps := fun _ _ _ => rfl
      linked := fun _ _ _ hab hpr => by rw [hab] at hpr; cases hpr
      frame := fun _ _ _ _ => rfl
      stores := ⟨[], rfl, fun _ hx => by cases hx⟩ }⟩

/-- One step down to a table that is made for it. -/
theorem Typed.next_made [DecidableEq P] (T : Typed F B G c h) {p q : P} {π : List I} {o : O} {i : I}
    {pool : S} (hp : c p = some (π, o)) (hlen : π.length + 1 < G.depth)
    (ha : F.present (F.entry h.mem p i) = false) (hq : B.take h.pool = some (q, pool)) :
    Descent F B G c h p π o [i] (fun r => if r = q then some (π ++ [i], o) else c r)
      ⟨(F.clear h.mem q).set (F.slot p i) (F.link q), pool⟩ q o := by
  have hqv := T.pool (B.free_of_take hq)
  have hpv := T.valid hp
  have hlink := entry_link_same (F := F) (m := h.mem) (p := p) (q := q) (i := i)
  have hne : ∀ {r x}, c r = some x → r ≠ q := fun hr => T.ne_free hr (B.free_of_take hq)
  have hnew : c q = none := T.free_eq_none (B.free_of_take hq)
  have hw : F.walk ((F.clear h.mem q).set (F.slot p i) (F.link q)) p [i] = some q := by
    rw [walk_cons (by rw [hlink]; exact F.present_link hqv)
      (by rw [hlink]; exact F.large_link hqv), hlink, F.target_link hqv]
    rfl
  refine
    { typed := T.link (i := i) hp hlen hq
      grows := fun hr => (if_neg (hne hr)).trans hr
      table := if_pos rfl
      owner := .inl rfl
      own := fun _ _ => rfl
      walk := hw
      lookup := fun j hr hmr hl => T.lookup_link hp hlen ha hqv hnew hr hmr hl
      keeps := fun {r x} j hr hk => ?_
      linked := fun {r x} j hr _ hab hpr => ?_
      frame := fun {r x} j hr ho _ => ?_
      stores := ?_ }
  · refine entry_link_other hpv hqv (T.valid hr) (hne hr) ?_
    by_contra hpi
    simp only [not_or, not_not] at hpi
    obtain ⟨rfl, rfl⟩ := hpi
    rw [hp] at hr
    cases hr
    rcases hk with hk | hk
    · simp only at hk
      omega
    · rw [ha] at hk
      cases hk
  · by_cases hpj : r = p ∧ j = i
    · obtain ⟨rfl, rfl⟩ := hpj
      rw [hp] at hr
      cases hr
      rw [hlink, F.target_link hqv]
      exact if_pos rfl
    · have he := entry_link_other (i := i) (j := j) (m := h.mem) hpv hqv (T.valid hr)
        (hne hr) (by tauto)
      rw [he, hab] at hpr
      cases hpr
  · refine entry_link_other hpv hqv (T.valid hr) (hne hr) (.inl fun e => ho ?_)
    rw [e, hp] at hr
    cases hr
    rfl
  · refine ⟨F.slot p i :: (F.indices.map (F.slot q)).reverse, ?_, ?_⟩
    · simp [clear, Store.setAll_written]
    · intro a ha'
      rcases List.mem_cons.mp ha' with rfl | ha'
      · exact ⟨0, p, i, rfl, rfl⟩
      · obtain ⟨j, -, rfl⟩ := List.mem_map.mp (List.mem_reverse.mp ha')
        exact ⟨1, q, j, hw, rfl⟩

/-- **One step down, making the table if it is absent**, is a descent. -/
theorem Typed.next [DecidableEq P] (T : Typed F B G c h) {p q : P} {π : List I} {o : O} {i : I}
    (hp : c p = some (π, o)) (hlen : π.length + 1 < G.depth) (hm : ¬ G.Foreign (π ++ [i]))
    (hn : F.next B h p i true = some (q, h')) :
    ∃ c' o', Descent F B G c h p π o [i] c' h' q o' := by
  cases ha : F.present (F.entry h.mem p i) with
  | true =>
      rw [Format.next, if_pos ha] at hn
      cases hn
      obtain ⟨o', D⟩ := T.next_present hp hlen hm ha
      exact ⟨c, o', D⟩
  | false =>
      simp only [Format.next, ha, Bool.false_eq_true, if_false, if_true, Option.map_eq_some_iff]
        at hn
      obtain ⟨⟨q', pool⟩, hq, e⟩ := hn
      simp only [Prod.mk.injEq] at e
      obtain ⟨hq', rfl⟩ := e
      rw [entry_link_same, F.target_link (T.pool (B.free_of_take hq))] at hq'
      subst hq'
      exact ⟨_, o, T.next_made hp hlen ha hq⟩

variable [DecidableEq P]

/-- **A walk that makes the missing tables** is a descent, and its result is not null. -/
theorem Typed.descend {is : List I} :
    ∀ {c : P → Option (List I × O)} {h : Heap A W S} {p q : P} {π : List I} {o : O},
      Typed F B G c h → c p = some (π, o) → G.Managed π is → π.length + is.length < G.depth →
      F.descend B h p is true = some (q, h') →
      ∃ c' o', Descent F B G c h p π o is c' h' q o' := by
  induction is with
  | nil =>
      intro c h p q π o T hp _ _ hd
      cases hd
      exact ⟨c, o, .nil T hp⟩
  | cons i is ih =>
      intro c h p q π o T hp hm hlen hd
      simp only [List.length_cons] at hlen
      simp only [Format.descend, Option.bind_eq_some_iff] at hd
      obtain ⟨⟨p₁, h₁⟩, hn, hd⟩ := hd
      obtain ⟨c₁, o₁, D₁⟩ := T.next hp (by omega) hm.1 hn
      rw [if_neg (F.ne_null (D₁.typed.valid D₁.table))] at hd
      obtain ⟨c', o', D₂⟩ := ih D₁.typed D₁.table hm.2 (by simp; omega) hd
      exact ⟨c', o', D₁.trans hp hm.1 (by omega) D₂⟩

/-- A walk that makes no table changes nothing, and finds the table the pure walk finds. -/
theorem Typed.descend_false {is : List I} :
    ∀ {p : P} {π : List I} {o : O}, Typed F B G c h → c p = some (π, o) → G.Managed π is →
      π.length + is.length < G.depth →
      F.descend B h p is false = some ((F.walk h.mem p is).getD F.null, h) := by
  induction is with
  | nil => intro p π o _ _ _ _; rfl
  | cons i is ih =>
      intro p π o T hp hm hlen
      simp only [List.length_cons] at hlen
      cases ha : F.present (F.entry h.mem p i) with
      | false => simp [Format.descend, Format.next, ha, walk_absent ha]
      | true =>
          obtain ⟨hlg, o', ht, -⟩ := T.edge hp (by simp only; omega) hm.1 ha
          have hnn := F.ne_null (T.valid ht)
          simp only [Format.descend, Format.next, ha, if_true, Option.bind_some, if_neg hnn,
            walk_cons ha hlg]
          exact ih T ht hm.2 (by simp; omega)

end Making

end Typed

end Format

end ZeptoOS.Lib
