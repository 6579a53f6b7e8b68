import ZeptoOS.Lib.Run
import ZeptoOS.Lib.Radix

/-!
# Lib — Spaces

Leaf stores through radix tables, and systems of several roots.

* `mapLeaf` and `unmapLeaf` store a leaf under a root.  Seen from any root, either is a
  finite-map update at most (`Write.same`, `Write.other`); it stores only into tables on the
  way (`Write.stores`).
* `copyRoot` makes a root that starts as a copy of the base root, and so shares its tables.
* `copySlots` makes a root the same as another.  Under the typing that gives the tables of the other
  to the base root (`share`), the system is typed as before (`Inv.copySlots`).
* `Spaces` is a base root with the roots copied from it.  `Inv.run` carries the ghost typing
  along a run, and `Inv.isolated` is the frame of a run on one root: where none of the indices
  it uses was inherited from the base root, no other root reads anything different.
-/

namespace ZeptoOS.Lib.Format

variable {A W P I S O : Type*} [DecidableEq A] [DecidableEq P]

section Operations

variable (F : Format A W P I) (B : Pool S P)

/-- Store `w` in the leaf at `is`, `j` below `p`, making the missing tables. -/
def mapLeaf (h : Heap A W S) (p : P) (is : List I) (j : I) (w : W) : Option (Heap A W S) :=
  (F.descend B h p is true).map fun x =>
    if x.1 = F.null then x.2 else { x.2 with mem := x.2.mem.set (F.slot x.1 j) w }

/-- Zero the leaf at `is`, `j` below `p`, if its table is there. -/
def unmapLeaf (h : Heap A W S) (p : P) (is : List I) (j : I) : Option (Heap A W S) :=
  (F.descend B h p is false).map fun x =>
    if x.1 = F.null then x.2 else { x.2 with mem := x.2.mem.set (F.slot x.1 j) F.zero }

omit [DecidableEq P] in
/-- `for i: q[i] = p[i]` -/
def copySlots (m : Store A W) (p q : P) : Store A W :=
  F.indices.foldl (fun m i => m.set (F.slot q i) (F.entry m p i)) m

omit [DecidableEq P] in
/-- `for i: q[i] = f(p[i])` -/
def copyWith (f : W → W) (m : Store A W) (p q : P) : Store A W :=
  F.indices.foldl (fun m i => m.set (F.slot q i) (f (F.entry m p i))) m

omit [DecidableEq P] in
/-- A new root, copied from `p`. -/
def copyRoot (h : Heap A W S) (p : P) : Option (P × Heap A W S) :=
  (B.take h.pool).map fun x => (x.1, ⟨F.copySlots (F.clear h.mem x.1) p x.1, x.2⟩)

end Operations

variable {F : Format A W P I} {B : Pool S P} {G : Plan I O}
  {c c' : P → Option (List I × O)} {h h' : Heap A W S}

/-! ### Leaf stores -/

section Leaf

variable {q : P} {π : List I} {o : O} {j : I} {w : W}

omit [DecidableEq P] in
theorem Typed.setLeaf (T : Typed F B G c h) (hq : c q = some (π, o))
    (hl : π.length + 1 = G.depth) :
    Typed F B G c { h with mem := h.mem.set (F.slot q j) w } where
  valid := T.valid
  busy := T.busy
  short := T.short
  pool := T.pool
  edge {p x i} hp hlen hm hpr := by
    have he : F.entry (h.mem.set (F.slot q j) w) p i = F.entry h.mem p i :=
      entry_set_other (T.valid hq) (T.valid hp) <| .inl fun e => by
        rw [e, hq] at hp
        cases hp
        simp only at hlen
        omega
    simp only [he] at hpr ⊢
    exact T.edge hp hlen hm hpr

omit [DecidableEq P] in
/-- A leaf store changes no walk to a last-level table. -/
theorem Typed.walk_setLeaf (T : Typed F B G c h) (hq : c q = some (π, o))
    (hl : π.length + 1 = G.depth) {is : List I} :
    ∀ {p : P} {x : List I × O}, c p = some x → G.Managed x.1 is →
      x.1.length + is.length < G.depth →
      F.walk (h.mem.set (F.slot q j) w) p is = F.walk h.mem p is := by
  induction is with
  | nil => intro p x _ _ _; rfl
  | cons i is ih =>
      intro p x hp hm hlen
      simp only [List.length_cons] at hlen
      have he : F.entry (h.mem.set (F.slot q j) w) p i = F.entry h.mem p i :=
        entry_set_other (T.valid hq) (T.valid hp) <| .inl fun e => by
          rw [e, hq] at hp
          cases hp
          simp only at hlen
          omega
      cases hpr : F.present (F.entry h.mem p i) with
      | false => rw [walk_absent (he ▸ hpr), walk_absent hpr]
      | true =>
          obtain ⟨hlg, o₁, ht, -⟩ := T.edge (i := i) hp (by omega) hm.1 hpr
          rw [walk_cons (he ▸ hpr) (he ▸ hlg), walk_cons hpr hlg, he]
          exact ih ht hm.2 (by simp; omega)

omit [DecidableEq P] in
/-- The leaf stored is read back under every root that shares its table. -/
theorem Typed.lookup_setLeaf_same (T : Typed F B G c h) (hq : c q = some (π, o))
    (hl : π.length + 1 = G.depth) {p : P} {x : List I × O} {is : List I} (hp : c p = some x)
    (hm : G.Managed x.1 is) (hlen : x.1.length + is.length < G.depth)
    (hw : F.walk h.mem p is = some q) :
    F.lookup (h.mem.set (F.slot q j) w) p is j = w := by
  simp only [lookup, T.walk_setLeaf hq hl hp hm hlen, hw]
  exact entry_set_same _ _ _ _

omit [DecidableEq P] in
/-- **No aliasing**: a leaf store changes the leaf at its own path only. -/
theorem Typed.lookup_setLeaf_other (T : Typed F B G c h) (hq : c q = some (π, o))
    (hl : π.length + 1 = G.depth) {p : P} {x : List I × O} {is : List I} {k : I}
    (hp : c p = some x) (hm : G.Managed x.1 is) (hlen : x.1.length + is.length < G.depth)
    (hne : (x.1 ++ is, k) ≠ (π, j)) :
    F.lookup (h.mem.set (F.slot q j) w) p is k = F.lookup h.mem p is k := by
  simp only [lookup, T.walk_setLeaf hq hl hp hm hlen]
  cases hw : F.walk h.mem p is with
  | none => rfl
  | some r =>
      obtain ⟨o', hr, -⟩ := T.walk hp hm hlen hw
      refine entry_set_other (T.valid hq) (T.valid hr) ?_
      by_contra hqj
      simp only [not_or, not_not] at hqj
      obtain ⟨rfl, rfl⟩ := hqj
      rw [hq] at hr
      cases hr
      exact hne rfl

end Leaf

/-- What storing `w` in the leaf at `is`, `j` below the root `p` of owner `o` does. -/
structure Write (F : Format A W P I) (B : Pool S P) (G : Plan I O)
    (c : P → Option (List I × O)) (h : Heap A W S) (p : P) (o : O) (is : List I) (j : I) (w : W)
    (c' : P → Option (List I × O)) (h' : Heap A W S) : Prop where
  typed : Typed F B G c' h'
  grows : ∀ {r x}, c r = some x → c' r = some x
  same : F.lookup h'.mem p is j = w
  other : ∀ {r x js k}, c r = some x → G.Managed x.1 js → x.1.length + js.length + 1 = G.depth →
    (x.1 ++ js, k) ≠ (is, j) → F.lookup h'.mem r js k = F.lookup h.mem r js k
  keeps : ∀ {r x} (i : I), c r = some x → x.1.length + 1 < G.depth →
    F.present (F.entry h.mem r i) → F.entry h'.mem r i = F.entry h.mem r i
  private_keeps : ∀ {r u} (i : I), c r = some ([], u) → ¬ G.Foreign [i] → 1 < G.depth →
    Private F c h.mem r i u → Private F c' h'.mem r i u
  frame : ∀ {i js}, is = i :: js → Private F c h.mem p i o →
    ∀ {r x} (k : I), c r = some x → x.2 ≠ o → F.entry h'.mem r k = F.entry h.mem r k
  frame_base : ∀ {r x} (k : I), c r = some x → x.2 ≠ o → x.2 ≠ G.base →
    F.entry h'.mem r k = F.entry h.mem r k
  stores : ∃ new, h'.mem.written = new ++ h.mem.written ∧ ∀ a ∈ new, ∃ k r i,
    F.walk h'.mem p (is.take k) = some r ∧ a = F.slot r i

omit [DecidableEq A] [DecidableEq P] in
/-- A write below an index under which two roots have tables of their own changes no leaf of the
other. -/
theorem Write.lookup_private {p r : P} {o u : O} {i : I} {js ks : List I} {j k : I} {w : W}
    (hw : Write F B G c h p o (i :: js) j w c' h') (T : Typed F B G c h)
    (hp : Private F c h.mem p i o) (hr : c r = some ([], u)) (hne : u ≠ o)
    (hpr : Private F c h.mem r i u) (hm : G.Managed [] ks) (hl : ks.length + 1 = G.depth) :
    F.lookup h'.mem r ks k = F.lookup h.mem r ks k := by
  have hlen : ([] : List I).length + ks.length + 1 = G.depth := by
    simp only [List.length_nil]
    omega
  by_cases he : (ks, k) = (i :: js, j)
  · cases he
    simp only [List.length_cons] at hlen hl
    have hroot : F.entry h'.mem r i = F.entry h.mem r i := hw.frame rfl hp i hr hne
    cases ha : F.present (F.entry h.mem r i) with
    | false => rw [lookup_absent (hroot ▸ ha), lookup_absent ha]
    | true =>
        obtain ⟨hlg, o₁, ht, -⟩ :=
          T.edge (i := i) hr (by simp only [List.length_nil]; omega) hm.1 ha
        have ho₁ : o₁ = u := hpr ha _ ht
        rw [lookup_cons (hroot ▸ ha) (hroot ▸ hlg), lookup_cons ha hlg, hroot]
        refine T.lookup_congr_own ht (by simp) hm.2
          (by simp only [List.nil_append, List.length_cons, List.length_nil]; omega)
          fun k hq ho => hw.frame rfl hp k hq ?_
        rw [ho, ho₁]
        exact hne
  · exact hw.other hr hm hlen he

section Roots

variable {p : P} {o : O} {is : List I} {j : I} {w : W}

omit [DecidableEq P] in
/-- A store into the last-level table a descent ends at. -/
theorem Descent.write {q : P} {o' : O} (D : Descent F B G c h p [] o is c' h' q o')
    (T : Typed F B G c h) (hp : c p = some ([], o)) (hm : G.Managed [] is)
    (hlen : is.length + 1 = G.depth) :
    Write F B G c h p o is j w c' { h' with mem := h'.mem.set (F.slot q j) w } := by
  have hq : c' q = some (is, o') := by simpa using D.table
  have T' := D.typed
  have hwalk : ∀ k,
      F.walk (h'.mem.set (F.slot q j) w) p (is.take k) = F.walk h'.mem p (is.take k) :=
    fun k => T'.walk_setLeaf hq hlen (D.grows hp) (hm.take k)
      (by simp only [List.length_nil, List.length_take]; omega)
  have hinner : ∀ {r x} (hr : c r = some x) (i : I), x.1.length + 1 < G.depth →
      F.entry (h'.mem.set (F.slot q j) w) r i = F.entry h'.mem r i := fun {r x} hr i hl =>
    entry_set_other (T'.valid hq) (T'.valid (D.grows hr)) <| .inl fun e => by
      have := D.grows hr
      rw [e, hq] at this
      cases this
      simp only at hl
      omega
  refine
    { typed := T'.setLeaf hq hlen
      grows := D.grows
      same := T'.lookup_setLeaf_same hq hlen (D.grows hp) hm
        (by simp only [List.length_nil]; omega) D.walk
      other := fun {r x js k} hr hmr hl hne => ?_
      keeps := fun {r x} i hr hl hpr => (hinner hr i hl).trans (D.keeps i hr (.inr hpr))
      private_keeps := fun {r u} i hr hf hd hpv hpr y hy => ?_
      frame := fun {i js} e hpv {r x} k hr ho => ?_
      frame_base := fun {r x} k hr ho hb => ?_
      stores := ?_ }
  · exact (T'.lookup_setLeaf_other hq hlen (D.grows hr) hmr (by omega) hne).trans
      (D.lookup k hr hmr hl)
  · have he := hinner hr i (by simpa using hd)
    simp only [he] at hpr hy
    cases ha : F.present (F.entry h.mem r i) with
    | false =>
        have := D.linked i hr (by simpa using hd) ha hpr
        rw [this] at hy
        cases hy
        rfl
    | true =>
        -- the slot was taken and is kept
        obtain ⟨-, o₁, ht, -⟩ := T.edge (i := i) hr (by simpa using hd) (by simpa using hf) ha
        have hk := D.keeps i hr (.inr ha)
        rw [hk, D.grows ht] at hy
        cases hy
        exact hpv ha _ ht
  · have ho' : o' = o := D.own e hpv
    refine (entry_set_other (T'.valid hq) (T'.valid (D.grows hr)) (.inl fun e => ?_)).trans
      (D.frame k hr ho (ho' ▸ ho))
    have := D.grows hr
    rw [e, hq] at this
    cases this
    exact ho ho'
  · have ho' : x.2 ≠ o' := by
      rcases D.owner with e | ⟨-, e⟩
      · exact e ▸ ho
      · exact e ▸ hb
    refine (entry_set_other (T'.valid hq) (T'.valid (D.grows hr)) (.inl fun e => ?_)).trans
      (D.frame k hr ho ho')
    have := D.grows hr
    rw [e, hq] at this
    cases this
    exact ho' rfl
  · obtain ⟨new, e, hs⟩ := D.stores
    refine ⟨F.slot q j :: new, by simp [e], fun a ha => ?_⟩
    rcases List.mem_cons.mp ha with rfl | ha
    · exact ⟨is.length, q, j, (hwalk _).trans (by rw [List.take_length]; exact D.walk), rfl⟩
    · obtain ⟨k, r, i, hr, rfl⟩ := hs a ha
      exact ⟨k, r, i, (hwalk k).trans hr, rfl⟩

/-- **Mapping a leaf** is a write, and fails only if the pool runs out. -/
theorem Typed.mapLeaf (T : Typed F B G c h) (hp : c p = some ([], o)) (hm : G.Managed [] is)
    (hlen : is.length + 1 = G.depth) (hmap : F.mapLeaf B h p is j w = some h') :
    ∃ c', Write F B G c h p o is j w c' h' := by
  simp only [Format.mapLeaf, Option.map_eq_some_iff] at hmap
  obtain ⟨⟨q, h₁⟩, hd, hq⟩ := hmap
  obtain ⟨c', o', D⟩ := T.descend hp hm (by simp only [List.length_nil]; omega) hd
  rw [if_neg (F.ne_null (D.typed.valid D.table))] at hq
  subst hq
  exact ⟨c', D.write T hp hm hlen⟩

/-- **Unmapping a leaf** is a write of zero, and always returns. -/
theorem Typed.unmapLeaf (T : Typed F B G c h) (hp : c p = some ([], o)) (hm : G.Managed [] is)
    (hlen : is.length + 1 = G.depth) (hun : F.unmapLeaf B h p is j = some h') :
    Write F B G c h p o is j F.zero c h' := by
  simp only [Format.unmapLeaf, T.descend_false hp hm (by simp only [List.length_nil]; omega),
    Option.map_some, Option.some.injEq] at hun
  cases hw : F.walk h.mem p is with
  | none =>
      rw [hw, Option.getD_none, if_pos rfl] at hun
      subst hun
      exact
        { typed := T
          grows := id
          same := by simp only [lookup, hw]
          other := fun _ _ _ _ => rfl
          keeps := fun _ _ _ _ => rfl
          private_keeps := fun _ _ _ _ h => h
          frame := fun _ _ _ _ _ _ _ => rfl
          frame_base := fun _ _ _ _ => rfl
          stores := ⟨[], rfl, fun _ ha => by cases ha⟩ }
  | some q =>
      obtain ⟨o', hq, ho'⟩ := T.walk hp hm (by simp only [List.length_nil]; omega) hw
      rw [hw, Option.getD_some, if_neg (F.ne_null (T.valid hq))] at hun
      subst hun
      have D : Descent F B G c h p [] o is c h q o' :=
        { typed := T
          grows := id
          table := hq
          owner := ho'
          own := fun {i js} e hpv => by
            -- the first link of the walk is the private one
            subst e
            simp only [Format.walk] at hw
            split at hw
            · rename_i hpr
              obtain ⟨-, o₁, ht, -⟩ := T.edge (i := i) hp
                (by simp only [List.length_nil, List.length_cons] at hlen ⊢; omega)
                hm.1 hpr.1
              obtain ⟨o₂, hq₂, ho₂⟩ := T.walk ht hm.2
                (by simp only [List.length_append, List.length_nil, List.length_cons] at hlen ⊢
                    omega) hw
              have : o₂ = o₁ := ho₂.resolve_right fun e => by simp at e
              rw [← hpv hpr.1 _ ht, ← this]
              rw [hq] at hq₂
              simpa using hq₂
            · cases hw
          walk := hw
          lookup := fun _ _ _ _ => rfl
          keeps := fun _ _ _ => rfl
          linked := fun _ _ _ ha hpr => by rw [ha] at hpr; cases hpr
          frame := fun _ _ _ _ => rfl
          stores := ⟨[], rfl, fun _ ha => by cases ha⟩ }
      exact D.write T hp hm hlen

/-! ### Copied roots -/

omit [DecidableEq P] in
theorem copyWith_other {f : W → W} {m : Store A W} {p q r : P} {i : I} (hq : F.Valid q)
    (hr : F.Valid r) (h : r ≠ q) : F.entry (F.copyWith f m p q) r i = F.entry m r i := by
  have key : ∀ (is : List I) (m : Store A W),
      F.entry (is.foldl (fun m i => m.set (F.slot q i) (f (F.entry m p i))) m) r i =
        F.entry m r i := by
    intro is
    induction is with
    | nil => intro m; rfl
    | cons k is ih => intro m; rw [List.foldl_cons, ih, entry_set_other hq hr (.inl h)]
  exact key _ _

omit [DecidableEq P] in
theorem copyWith_same {f : W → W} {m : Store A W} {p q : P} {i : I} (hp : F.Valid p)
    (hq : F.Valid q) (h : p ≠ q) : F.entry (F.copyWith f m p q) q i = f (F.entry m p i) := by
  have key : ∀ (is : List I) (m : Store A W), i ∈ is ∨ F.entry m q i = f (F.entry m p i) →
      F.entry (is.foldl (fun m i => m.set (F.slot q i) (f (F.entry m p i))) m) q i =
        f (F.entry m p i) := by
    intro is
    induction is with
    | nil => intro m hi; exact hi.resolve_left List.not_mem_nil
    | cons k is ih =>
        intro m hi
        have hpk : F.entry (m.set (F.slot q k) (f (F.entry m p k))) p i = F.entry m p i :=
          entry_set_other hq hp (.inl h)
        rw [List.foldl_cons, ih _ ?_, hpk]
        by_cases e : i = k
        · subst e
          exact .inr ((entry_set_same _ _ _ _).trans (congrArg f hpk.symm))
        · rw [hpk, entry_set_other hq hq (.inr e)]
          exact hi.imp (fun hi => (List.mem_cons.mp hi).resolve_left e) id
  exact key _ _ (.inl (F.mem_indices i))

omit [DecidableEq P] in
theorem copySlots_other {m : Store A W} {p q r : P} {i : I} (hq : F.Valid q) (hr : F.Valid r)
    (h : r ≠ q) : F.entry (F.copySlots m p q) r i = F.entry m r i :=
  copyWith_other (f := id) hq hr h

omit [DecidableEq P] in
theorem copySlots_same {m : Store A W} {p q : P} {i : I} (hp : F.Valid p) (hq : F.Valid q)
    (h : p ≠ q) : F.entry (F.copySlots m p q) q i = F.entry m p i :=
  copyWith_same (f := id) hp hq h

/-- What making a root `q` of owner `u` by copying the base root does. -/
structure Copied (F : Format A W P I) (B : Pool S P) (G : Plan I O)
    (c : P → Option (List I × O)) (h : Heap A W S) (p q : P) (u : O)
    (c' : P → Option (List I × O)) (h' : Heap A W S) : Prop where
  typed : Typed F B G c' h'
  grows : ∀ {r x}, c r = some x → c' r = some x
  table : c' q = some ([], u)
  new : c q = none
  same : ∀ i, F.entry h'.mem q i = F.entry h.mem p i
  frame : ∀ {r x} (i : I), c r = some x → F.entry h'.mem r i = F.entry h.mem r i

/-- **A copied root** is typed like any root, and nothing else changes. -/
theorem Typed.copyRoot (T : Typed F B G c h) (hp : c p = some ([], G.base)) {q : P} (u : O)
    (hc : F.copyRoot B h p = some (q, h')) : ∃ c', Copied F B G c h p q u c' h' := by
  simp only [Format.copyRoot, Option.map_eq_some_iff, Prod.mk.injEq] at hc
  obtain ⟨⟨q', pool⟩, hq, rfl, rfl⟩ := hc
  have hqv := T.pool (B.free_of_take hq)
  have hpv := T.valid hp
  have hne : ∀ {r x}, c r = some x → r ≠ q' := fun hr => T.ne_free hr (B.free_of_take hq)
  have hsame : ∀ i, F.entry (F.copySlots (F.clear h.mem q') p q') q' i = F.entry h.mem p i :=
    fun i => by
      rw [copySlots_same hpv hqv (hne hp), entry_clear_other hqv hpv (hne hp)]
  have hframe : ∀ {r x} (i : I), c r = some x →
      F.entry (F.copySlots (F.clear h.mem q') p q') r i = F.entry h.mem r i := fun i hr => by
    rw [copySlots_other hqv (T.valid hr) (hne hr),
      entry_clear_other hqv (T.valid hr) (hne hr)]
  have hdepth : 0 < G.depth := T.short hp
  refine ⟨fun r => if r = q' then some ([], u) else c r,
    { typed := T.extend hq hdepth (fun {i} hl hm hpr => ?_) fun i hr _ => .inl (hframe i hr)
      grows := fun hr => (if_neg (hne hr)).trans hr
      table := if_pos rfl
      new := T.free_eq_none (B.free_of_take hq)
      same := hsame
      frame := hframe }⟩
  -- the links of the copy are those of the base root
  simp only [hsame] at hpr ⊢
  obtain ⟨hlg, o₁, ht, ho₁⟩ := T.edge hp hl hm hpr
  exact ⟨hlg, o₁, by rw [if_neg (hne ht)]; exact ht, .inr ⟨trivial, ho₁.elim id (·.2)⟩⟩

omit [DecidableEq A] [DecidableEq P] in
/-- Making a root changes no leaf of the others. -/
theorem Copied.lookup_old {q : P} {u : O} (hC : Copied F B G c h p q u c' h')
    (T : Typed F B G c h) {r : P} {x : List I × O} (hr : c r = some x) {js : List I}
    (hm : G.Managed x.1 js) (hl : x.1.length + js.length < G.depth) (k : I) :
    F.lookup h'.mem r js k = F.lookup h.mem r js k :=
  T.lookup_congr hr hm hl fun k hq _ => hC.frame k hq

omit [DecidableEq A] [DecidableEq P] in
/-- The new root has the leaves of the base root. -/
theorem Copied.lookup_new {q : P} {u : O} (hC : Copied F B G c h p q u c' h')
    (T : Typed F B G c h) (hp : c p = some ([], o)) {js : List I} (hm : G.Managed [] js)
    (hl : js.length < G.depth) (k : I) : F.lookup h'.mem q js k = F.lookup h.mem p js k := by
  cases js with
  | nil => exact hC.same k
  | cons i js =>
      simp only [List.length_cons] at hl
      cases hpr : F.present (F.entry h.mem p i) with
      | false => rw [lookup_absent (hC.same i ▸ hpr), lookup_absent hpr]
      | true =>
          obtain ⟨hlg, o₁, ht, -⟩ := T.edge (i := i) hp (by simp only [List.length_nil]; omega)
            hm.1 hpr
          rw [lookup_cons (hC.same i ▸ hpr) (hC.same i ▸ hlg), lookup_cons hpr hlg, hC.same i]
          exact T.lookup_congr ht hm.2 (by simp; omega) fun k hq _ => hC.frame k hq

/-! ### Shared tables -/

/-- The typing in which the tables of `u` below the roots are tables of `b`. -/
def share [DecidableEq O] (c : P → Option (List I × O)) (u b : O) (r : P) : Option (List I × O) :=
  (c r).map fun x => (x.1, if x.1.isEmpty then x.2 else if x.2 = u then b else x.2)

section Share

variable [DecidableEq O] {u b : O}

omit [DecidableEq P] in
theorem share_eq {r : P} {x : List I × O} (hr : c r = some x) : share c u b r =
    some (x.1, if x.1.isEmpty then x.2 else if x.2 = u then b else x.2) := by
  rw [share, hr]
  rfl

omit [DecidableEq P] in
theorem share_some {r : P} {x : List I × O} (hr : share c u b r = some x) :
    ∃ o, c r = some (x.1, o) ∧ x.2 = if x.1.isEmpty then o else if o = u then b else o := by
  obtain ⟨⟨π, o⟩, hc, rfl⟩ := Option.map_eq_some_iff.mp hr
  exact ⟨o, hc, rfl⟩

omit [DecidableEq P] in
/-- **A root `q` made the same as `p`** is typed if the tables of `p` may be shared. -/
theorem Typed.copySlots (T : Typed F B G c h) {q : P} {v : O} (hp : c p = some ([], u))
    (hq : c q = some ([], v)) (hne : p ≠ q) :
    Typed F B G (share c u G.base) { h with mem := F.copySlots h.mem p q } where
  valid hr := by
    obtain ⟨o, hc, -⟩ := share_some hr
    exact T.valid hc
  busy hr := by
    obtain ⟨o, hc, -⟩ := share_some hr
    exact T.busy hc
  short hr := by
    obtain ⟨o, hc, -⟩ := share_some hr
    have hshort := T.short hc
    exact hshort
  pool := T.pool
  edge {r x i} hr hl hm hpr := by
    obtain ⟨o, hc, ho⟩ := share_some hr
    -- the entry is one of `r`, or one of `p` where `r` is the copy
    obtain ⟨r', v', hc', he, hcopy⟩ : ∃ r' v', c r' = some (x.1, v') ∧
        F.entry (F.copySlots h.mem p q) r i = F.entry h.mem r' i ∧
        (v' = o ∨ x.1 = [] ∧ v' = u) := by
      by_cases e : r = q
      · subst e
        rw [hq] at hc
        obtain ⟨hπ, -⟩ := Prod.mk.inj (Option.some.inj hc)
        exact ⟨p, u, by rw [← hπ]; exact hp, copySlots_same (T.valid hp) (T.valid hq) hne,
          .inr ⟨hπ.symm, rfl⟩⟩
      · exact ⟨r, o, hc, copySlots_other (T.valid hq) (T.valid hc) e, .inl rfl⟩
    simp only [he] at hpr ⊢
    obtain ⟨hlg, o₁, ht, ho₁⟩ := T.edge hc' hl hm hpr
    refine ⟨hlg, _, share_eq ht, ?_⟩
    have hlong : (x.1 ++ [i]).isEmpty = false := by simp
    simp only [hlong, Bool.false_eq_true, if_false]
    by_cases hroot : x.1 = []
    · have hempty : x.1.isEmpty = true := by rw [hroot]; rfl
      rw [hempty, if_pos rfl] at ho
      split
      · exact .inr ⟨hroot, rfl⟩
      · rename_i hu
        rcases ho₁ with e | ⟨-, e⟩
        · rcases hcopy with e' | ⟨-, e'⟩
          · exact .inl ((e.trans e').trans ho.symm)
          · exact absurd (e.trans e') hu
        · exact .inr ⟨hroot, e⟩
    · have hinner : x.1.isEmpty = false := by simpa using hroot
      rw [hinner, if_neg (by decide)] at ho
      have hv : v' = o := hcopy.resolve_right fun h => hroot h.1
      have ho₁ : o₁ = v' := ho₁.resolve_right fun h => hroot h.1
      rw [ho, ho₁, hv]
      exact .inl rfl

end Share

end Roots

end ZeptoOS.Lib.Format

namespace ZeptoOS.Lib

/-! ### Systems of roots -/

/-- A heap with a base root and the roots copied from it, latest first. -/
structure Spaces (A W P S : Type*) where
  heap : Heap A W S
  base : P
  made : List P

inductive SpaceOp (P I W : Type*) where
  | create
  | map (p : P) (is : List I) (j : I) (w : W)
  | unmap (p : P) (is : List I) (j : I)

namespace Spaces

variable {A W P I S : Type*}

/-- The roots of the system. -/
def roots (s : Spaces A W P S) : List P := s.base :: s.made

variable [DecidableEq A] [DecidableEq P] (F : Format A W P I) (B : Pool S P)

/-- One operation; `none` where the pool has run out or the root is not one of the system's. -/
def step (s : Spaces A W P S) : SpaceOp P I W → Option (Spaces A W P S)
  | .create =>
      (F.copyRoot B s.heap s.base).map fun x => { s with heap := x.2, made := x.1 :: s.made }
  | .map p is j w =>
      if p ∈ s.roots then (F.mapLeaf B s.heap p is j w).map ({ s with heap := · }) else none
  | .unmap p is j =>
      if p ∈ s.roots then (F.unmapLeaf B s.heap p is j).map ({ s with heap := · }) else none

/-- The roots, and the blocks that may become roots, are blocks for tables. -/
def RootsValid (s : Spaces A W P S) : Prop := ∀ p, p ∈ s.roots ∨ B.Free s.heap.pool p → F.Valid p

/-- They are whatever the operations store, and wherever. -/
theorem RootsValid.step {F : Format A W P I} {B : Pool S P} {s s' : Spaces A W P S}
    (hR : s.RootsValid F B) {op : SpaceOp P I W} (h : s.step F B op = some s') :
    s'.RootsValid F B := by
  have hpool : ∀ {h' : Heap A W S}, (∀ r, B.Free h'.pool r → B.Free s.heap.pool r) →
      ({ s with heap := h' } : Spaces A W P S).RootsValid F B :=
    fun hfree p hp => hR p (hp.imp_right (hfree p))
  cases op with
  | create =>
      simp only [Spaces.step, Format.copyRoot, Option.map_map, Option.map_eq_some_iff,
        Function.comp_apply] at h
      obtain ⟨⟨q, pool⟩, htake, rfl⟩ := h
      intro p hp
      simp only [roots, List.mem_cons] at hp
      rcases hp with (rfl | rfl | hp) | hp
      · exact hR _ (.inl List.mem_cons_self)
      · exact hR _ (.inr (B.free_of_take htake))
      · exact hR _ (.inl (List.mem_cons_of_mem _ hp))
      · exact hR _ (.inr ((B.free_take_iff htake).mp hp).1)
  | map r is j w =>
      simp only [Spaces.step] at h
      split at h
      · simp only [Format.mapLeaf, Option.map_map, Option.map_eq_some_iff,
          Function.comp_apply] at h
        obtain ⟨x, hd, rfl⟩ := h
        refine hpool fun r hr => Format.descend_free hd ?_
        split at hr <;> exact hr
      · cases h
  | unmap r is j =>
      simp only [Spaces.step] at h
      split at h
      · simp only [Format.unmapLeaf, Option.map_map, Option.map_eq_some_iff,
          Function.comp_apply] at h
        obtain ⟨x, hd, rfl⟩ := h
        refine hpool fun r hr => Format.descend_free hd ?_
        split at hr <;> exact hr
      · cases h

end Spaces

variable {A W P I S : Type*} [DecidableEq A] [DecidableEq P]

/-- The ghost typing of a system: every root is typed as its own. -/
structure Inv (F : Format A W P I) (B : Pool S P) (depth : ℕ) (Foreign : List I → Prop)
    (c : P → Option (List I × P)) (s : Spaces A W P S) : Prop where
  typed : F.Typed B ⟨depth, s.base, Foreign⟩ c s.heap
  root : ∀ r ∈ s.roots, c r = some ([], r)
  apart : s.base ∉ s.made
  nodup : s.made.Nodup

omit [DecidableEq A] [DecidableEq P] in
theorem Inv.rootsValid {F : Format A W P I} {B : Pool S P} {depth : ℕ} {Foreign : List I → Prop}
    {c : P → Option (List I × P)} {s : Spaces A W P S} (hI : Inv F B depth Foreign c s) :
    s.RootsValid F B :=
  fun p hp => hp.elim (fun h => hI.typed.valid (hI.root p h)) hI.typed.pool

/-- The operation is on managed indices, one for each level. -/
def SpaceOp.Fits (depth : ℕ) (Foreign : List I → Prop) : SpaceOp P I W → Prop
  | .create => True
  | .map p is _ _ | .unmap p is _ =>
      (⟨depth, p, Foreign⟩ : Plan I P).Managed [] is ∧ is.length + 1 = depth

/-- What any operation leaves as it was, under a typing that only grows. -/
structure Kept (F : Format A W P I) (depth : ℕ) (Foreign : List I → Prop)
    (c : P → Option (List I × P)) (s : Spaces A W P S) (c' : P → Option (List I × P))
    (s' : Spaces A W P S) : Prop where
  base : s'.base = s.base
  made : ∃ new, s'.made = new ++ s.made
  grows : ∀ {r x}, c r = some x → c' r = some x
  entry : ∀ {r x} (i : I), c r = some x → x.1.length + 1 < depth →
    F.present (F.entry s.heap.mem r i) → F.entry s'.heap.mem r i = F.entry s.heap.mem r i
  priv : ∀ {r} (i : I), r ∈ s.roots → ¬ Foreign [i] → 1 < depth →
    F.Private c s.heap.mem r i r → F.Private c' s'.heap.mem r i r

section Inv

variable {F : Format A W P I} {B : Pool S P} {depth : ℕ} {Foreign : List I → Prop}
  {c c' : P → Option (List I × P)} {s s' s₁ : Spaces A W P S}

omit [DecidableEq A] [DecidableEq P] in
theorem Plan.managed_base {b b' : P} :
    ∀ {π is : List I}, (⟨depth, b, Foreign⟩ : Plan I P).Managed π is →
      (⟨depth, b', Foreign⟩ : Plan I P).Managed π is
  | _, [], _ => trivial
  | _, _ :: _, h => ⟨h.1, managed_base h.2⟩

omit [DecidableEq A] [DecidableEq P] in
theorem Kept.refl (c : P → Option (List I × P)) (s : Spaces A W P S) :
    Kept F depth Foreign c s c s :=
  ⟨rfl, ⟨[], rfl⟩, id, fun _ _ _ _ => rfl, fun _ _ _ _ h => h⟩

omit [DecidableEq A] [DecidableEq P] in
theorem Kept.roots (K : Kept F depth Foreign c s c' s') {r : P} (hr : r ∈ s.roots) :
    r ∈ s'.roots := by
  obtain ⟨new, e⟩ := K.made
  simp only [Spaces.roots, List.mem_cons, K.base, e, List.mem_append] at hr ⊢
  tauto

omit [DecidableEq A] [DecidableEq P] in
theorem Kept.trans {c₁ : P → Option (List I × P)} (K₁ : Kept F depth Foreign c s c₁ s₁)
    (K₂ : Kept F depth Foreign c₁ s₁ c' s') : Kept F depth Foreign c s c' s' where
  base := K₂.base.trans K₁.base
  made := by
    obtain ⟨n₁, e₁⟩ := K₁.made
    obtain ⟨n₂, e₂⟩ := K₂.made
    exact ⟨n₂ ++ n₁, by rw [e₂, e₁, List.append_assoc]⟩
  grows hr := K₂.grows (K₁.grows hr)
  entry i hr hl hpr := by
    have h₁ := K₁.entry i hr hl hpr
    exact (K₂.entry i (K₁.grows hr) hl (h₁ ▸ hpr)).trans h₁
  priv i hr hf hd hp := K₂.priv i (K₁.roots hr) hf hd (K₁.priv i hr hf hd hp)

omit [DecidableEq A] [DecidableEq P] in
/-- A walk through typed tables stays. -/
theorem Inv.walk_keeps (hI : Inv F B depth Foreign c s) (K : Kept F depth Foreign c s c' s')
    {js : List I} :
    ∀ {r q : P} {x : List I × P}, c r = some x →
      (⟨depth, s.base, Foreign⟩ : Plan I P).Managed x.1 js → x.1.length + js.length < depth →
      F.walk s.heap.mem r js = some q → F.walk s'.heap.mem r js = some q := by
  induction js with
  | nil => intro r q x _ _ _ hw; exact hw
  | cons j js ih =>
      intro r q x hr hm hlen hw
      simp only [List.length_cons] at hlen
      simp only [Format.walk] at hw
      split at hw
      · rename_i hpr
        obtain ⟨-, u, ht, -⟩ := hI.typed.edge (i := j) hr (by simp only; omega) hm.1 hpr.1
        have he := K.entry j hr (by omega) hpr.1
        rw [Format.walk_cons (he ▸ hpr.1) (he ▸ hpr.2), he]
        exact ih ht hm.2 (by simp; omega) hw
      · cases hw

omit [DecidableEq A] [DecidableEq P] in
/-- The system after a leaf write under one of its roots. -/
theorem Inv.write (hI : Inv F B depth Foreign c s) {p : P} {is : List I} {j : I} {w : W}
    {h' : Heap A W S}
    (hw : F.Write B ⟨depth, s.base, Foreign⟩ c s.heap p p is j w c' h') :
    Inv F B depth Foreign c' { s with heap := h' } ∧
      Kept F depth Foreign c s c' { s with heap := h' } :=
  ⟨⟨hw.typed, fun r hr => hw.grows (hI.root r hr), hI.apart, hI.nodup⟩,
    ⟨rfl, ⟨[], rfl⟩, hw.grows, hw.keeps, fun i hr hf hd => hw.private_keeps i (hI.root _ hr) hf hd⟩⟩

theorem Inv.map (hI : Inv F B depth Foreign c s) {p : P} {is : List I} {j : I} {w : W}
    (hf : (SpaceOp.map p is j w).Fits depth Foreign)
    (h : s.step F B (.map p is j w) = some s') :
    ∃ c' h', p ∈ s.roots ∧ s' = { s with heap := h' } ∧
      F.Write B ⟨depth, s.base, Foreign⟩ c s.heap p p is j w c' h' := by
  simp only [Spaces.step] at h
  split at h
  · rename_i hp
    obtain ⟨h', hm, rfl⟩ := Option.map_eq_some_iff.mp h
    obtain ⟨c', hw⟩ := hI.typed.mapLeaf (hI.root p hp) (Plan.managed_base hf.1) hf.2 hm
    exact ⟨c', h', hp, rfl, hw⟩
  · cases h

theorem Inv.unmap (hI : Inv F B depth Foreign c s) {p : P} {is : List I} {j : I}
    (hf : (SpaceOp.unmap p is j : SpaceOp P I W).Fits depth Foreign)
    (h : s.step F B (.unmap p is j) = some s') :
    ∃ h', p ∈ s.roots ∧ s' = { s with heap := h' } ∧
      F.Write B ⟨depth, s.base, Foreign⟩ c s.heap p p is j F.zero c h' := by
  simp only [Spaces.step] at h
  split at h
  · rename_i hp
    obtain ⟨h', hm, rfl⟩ := Option.map_eq_some_iff.mp h
    exact ⟨h', hp, rfl, hI.typed.unmapLeaf (hI.root p hp) (Plan.managed_base hf.1) hf.2 hm⟩
  · cases h

/-- **A new root** is a root that reads as the base root does. -/
theorem Inv.create (hI : Inv F B depth Foreign c s) (h : s.step F B .create = some s') :
    ∃ c' q h', s' = { s with heap := h', made := q :: s.made } ∧ q ∉ s.roots ∧
      F.Copied B ⟨depth, s.base, Foreign⟩ c s.heap s.base q q c' h' := by
  obtain ⟨⟨q, h'⟩, hc, rfl⟩ := Option.map_eq_some_iff.mp h
  obtain ⟨c', hC⟩ := hI.typed.copyRoot (hI.root s.base List.mem_cons_self) q hc
  refine ⟨c', q, h', rfl, fun hq => ?_, hC⟩
  have := hI.root q hq
  rw [hC.new] at this
  cases this

theorem Inv.create_inv (hI : Inv F B depth Foreign c s) (h : s.step F B .create = some s') :
    ∃ c' q h', s' = { s with heap := h', made := q :: s.made } ∧
      F.Copied B ⟨depth, s.base, Foreign⟩ c s.heap s.base q q c' h' ∧
      Inv F B depth Foreign c' s' ∧ Kept F depth Foreign c s c' s' := by
  obtain ⟨c', q, h', rfl, hq, hC⟩ := hI.create h
  refine ⟨c', q, h', rfl, hC, ⟨hC.typed, fun r hr => ?_, fun hb => ?_, ?_⟩,
    ⟨rfl, ⟨[q], rfl⟩, hC.grows, fun i hr _ _ => hC.frame i hr, fun i hr hf' hd hp hpr x hx => ?_⟩⟩
  · simp only [Spaces.roots, List.mem_cons] at hr
    rcases hr with rfl | rfl | hr
    · exact hC.grows (hI.root _ List.mem_cons_self)
    · exact hC.table
    · exact hC.grows (hI.root r (List.mem_cons_of_mem _ hr))
  · rcases List.mem_cons.mp hb with e | hb
    · exact hq (e ▸ List.mem_cons_self)
    · exact hI.apart hb
  · exact List.nodup_cons.mpr ⟨fun h => hq (List.mem_cons_of_mem _ h), hI.nodup⟩
  · have he := hC.frame i (hI.root _ hr)
    simp only [he] at hpr hx
    obtain ⟨-, o₁, ht, -⟩ := hI.typed.edge (i := i) (hI.root _ hr) hd hf' hpr
    rw [hC.grows ht] at hx
    cases hx
    exact hp hpr _ ht

theorem Inv.step (hI : Inv F B depth Foreign c s) {op : SpaceOp P I W}
    (hf : op.Fits depth Foreign) (h : s.step F B op = some s') :
    ∃ c', Inv F B depth Foreign c' s' ∧ Kept F depth Foreign c s c' s' := by
  cases op with
  | map p is j w =>
      obtain ⟨c', _, hp, rfl, hw⟩ := hI.map hf h
      exact ⟨c', hI.write hw⟩
  | unmap p is j =>
      obtain ⟨h', hp, rfl, hw⟩ := hI.unmap hf h
      exact ⟨c, hI.write hw⟩
  | create =>
      obtain ⟨c', -, -, -, -, hI', K⟩ := hI.create_inv h
      exact ⟨c', hI', K⟩

/-- **The run rule of a system.** -/
theorem Inv.run {ops : List (SpaceOp P I W)}
    (hr : Run (fun s op s' => s.step F B op = some s') s ops s')
    (hf : ∀ op ∈ ops, op.Fits depth Foreign) :
    ∀ {c}, Inv F B depth Foreign c s →
      ∃ c', Inv F B depth Foreign c' s' ∧ Kept F depth Foreign c s c' s' := by
  induction hr with
  | refl => exact fun hI => ⟨_, hI, .refl _ _⟩
  | more h _ ih =>
      intro c hI
      obtain ⟨c₁, hI₁, K₁⟩ := hI.step (hf _ List.mem_cons_self) h
      obtain ⟨c', hI', K'⟩ := ih (fun op hop => hf op (List.mem_cons_of_mem _ hop)) hI₁
      exact ⟨c', hI', K₁.trans K'⟩

/-- **A root made the same as another** shares its tables, as roots share those of the base root. -/
theorem Inv.copySlots (hI : Inv F B depth Foreign c s) {p q : P} (hp : p ∈ s.roots)
    (hq : q ∈ s.roots) (hne : p ≠ q) :
    Inv F B depth Foreign (Format.share c p s.base)
      { s with heap := { s.heap with mem := F.copySlots s.heap.mem p q } } where
  typed := hI.typed.copySlots (hI.root p hp) (hI.root q hq) hne
  root r hr := by
    rw [Format.share_eq (hI.root r hr)]
    rfl
  apart := hI.apart
  nodup := hI.nodup

/-- The operation is on the root `a`, under an index `a` did not inherit. -/
def SpaceOp.OnPrivate (F : Format A W P I) (depth : ℕ) (Foreign : List I → Prop)
    (c : P → Option (List I × P)) (s : Spaces A W P S) (a : P) : SpaceOp P I W → Prop
  | .create => False
  | .map p is j w => p = a ∧ (SpaceOp.map p is j w).Fits depth Foreign ∧
      ∃ i js, is = i :: js ∧ F.Private c s.heap.mem a i a
  | .unmap p is j => p = a ∧ (SpaceOp.unmap p is j : SpaceOp P I W).Fits depth Foreign ∧
      ∃ i js, is = i :: js ∧ F.Private c s.heap.mem a i a

omit [DecidableEq A] [DecidableEq P] in
theorem SpaceOp.OnPrivate.fits {a : P} {op : SpaceOp P I W}
    (h : op.OnPrivate F depth Foreign c s a) : op.Fits depth Foreign := by
  cases op with
  | create => exact h.elim
  | map | unmap => exact h.2.1

omit [DecidableEq A] [DecidableEq P] in
theorem SpaceOp.OnPrivate.kept {a : P} {op : SpaceOp P I W} (ha : a ∈ s.roots)
    (K : Kept F depth Foreign c s c' s') (h : op.OnPrivate F depth Foreign c s a) :
    op.OnPrivate F depth Foreign c' s' a := by
  have key : ∀ {is : List I}, (⟨depth, a, Foreign⟩ : Plan I P).Managed [] is →
      is.length + 1 = depth → (∃ i js, is = i :: js ∧ F.Private c s.heap.mem a i a) →
      ∃ i js, is = i :: js ∧ F.Private c' s'.heap.mem a i a := by
    rintro is hm hl ⟨i, js, rfl, hp⟩
    exact ⟨i, js, rfl, K.priv i ha hm.1 (by simp only [List.length_cons] at hl; omega) hp⟩
  cases op with
  | create => exact h
  | map | unmap =>
      obtain ⟨rfl, hf, hp⟩ := h
      exact ⟨rfl, hf, key hf.1 hf.2 hp⟩

/-- **Isolation.**  A run on the root `a`, under indices it did not inherit, changes no table of
another owner. -/
theorem Inv.isolated {a : P} {ops : List (SpaceOp P I W)}
    (hr : Run (fun s op s' => s.step F B op = some s') s ops s') :
    ∀ {c}, Inv F B depth Foreign c s → a ∈ s.roots →
      (∀ op ∈ ops, op.OnPrivate F depth Foreign c s a) →
      ∀ {r x} (k : I), c r = some x → x.2 ≠ a →
        F.entry s'.heap.mem r k = F.entry s.heap.mem r k := by
  induction hr with
  | refl => exact fun _ _ _ _ _ _ _ _ => rfl
  | @more s s₁ s' op ops h t ih =>
      intro c hI ha hops r x k hx hne
      have hop := hops op List.mem_cons_self
      have key : ∃ c₁, Inv F B depth Foreign c₁ s₁ ∧ Kept F depth Foreign c s c₁ s₁ ∧
          F.entry s₁.heap.mem r k = F.entry s.heap.mem r k := by
        cases op with
        | create => exact hop.elim
        | map p is j w =>
            obtain ⟨rfl, hf, i, js, rfl, hp⟩ := hop
            obtain ⟨c₁, h₁, -, rfl, hw⟩ := hI.map hf h
            obtain ⟨hI₁, K₁⟩ := hI.write hw
            exact ⟨c₁, hI₁, K₁, hw.frame rfl hp k hx hne⟩
        | unmap p is j =>
            obtain ⟨rfl, hf, i, js, rfl, hp⟩ := hop
            obtain ⟨h₁, -, rfl, hw⟩ := hI.unmap hf h
            obtain ⟨hI₁, K₁⟩ := hI.write hw
            exact ⟨c, hI₁, K₁, hw.frame rfl hp k hx hne⟩
      obtain ⟨c₁, hI₁, K₁, he⟩ := key
      refine (ih hI₁ (K₁.roots ha) (fun op hop => ?_) k (K₁.grows hx) hne).trans he
      exact (hops op (List.mem_cons_of_mem _ hop)).kept ha K₁

omit [DecidableEq A] [DecidableEq P] in
/-- A zeroed root over a pool of valid blocks, one of which it is not, is a system. -/
theorem Inv.zeroed [DecidableEq P] {h : Heap A W S} {p : P} (hp : F.Valid p)
    (hbusy : ¬ B.Free h.pool p) (hpool : ∀ {q}, B.Free h.pool q → F.Valid q)
    (hz : ∀ i, F.entry h.mem p i = F.zero) (hd : 0 < depth) :
    Inv F B depth Foreign (fun r => if r = p then some ([], p) else none) ⟨h, p, []⟩ where
  typed :=
    { valid := fun {r x} hr => by
        split at hr
        · rename_i e
          exact e ▸ hp
        · cases hr
      busy := fun {r x} hr => by
        split at hr
        · rename_i e
          exact e ▸ hbusy
        · cases hr
      short := fun {r x} hr => by
        split at hr
        · cases hr
          exact hd
        · cases hr
      edge := fun {r x i} hr _ _ hpr => by
        split at hr
        · rename_i e
          rw [e] at hpr
          simp only [hz i, F.present_zero, Bool.false_eq_true] at hpr
        · cases hr
      pool := hpool }
  root r hr := by
    obtain rfl : r = p := by simpa [Spaces.roots] using hr
    exact if_pos rfl
  apart := List.not_mem_nil
  nodup := List.nodup_nil

end Inv

/-! ### What a root reads -/

/-- The operation makes a root, or is on the root `p`. -/
def SpaceOp.On (p : P) : SpaceOp P I W → Prop
  | .create => True
  | .map q _ _ _ | .unmap q _ _ => q = p

/-- The word an operation leaves in the leaf at `js`, `k`, if it is about that leaf. -/
def SpaceOp.word [DecidableEq I] (zero : W) (js : List I) (k : I) : SpaceOp P I W → Option W
  | .create => none
  | .map _ is j w => if (is, j) = (js, k) then some w else none
  | .unmap _ is j => if (is, j) = (js, k) then some zero else none

/-- The leaf at `js`, `k` of the root `p`; before `p` is made, the leaf it will inherit. -/
def Spaces.read (F : Format A W P I) (s : Spaces A W P S) (p : P) (js : List I) (k : I) : W :=
  F.lookup s.heap.mem (if p ∈ s.roots then p else s.base) js k

section Read

variable {F : Format A W P I} {B : Pool S P} {depth : ℕ} {Foreign : List I → Prop}
  {c : P → Option (List I × P)} {s s' : Spaces A W P S}

theorem Inv.read_create (hI : Inv F B depth Foreign c s) (h : s.step F B .create = some s')
    {p : P} {js : List I} (hm : (⟨depth, p, Foreign⟩ : Plan I P).Managed [] js)
    (hl : js.length + 1 = depth) (k : I) : s'.read F p js k = s.read F p js k := by
  obtain ⟨c', q, h', rfl, -, hC⟩ := hI.create h
  have hlen : js.length < depth := by omega
  have hold : ∀ {r}, r ∈ s.roots → F.lookup h'.mem r js k = F.lookup s.heap.mem r js k :=
    fun hr => hC.lookup_old hI.typed (hI.root _ hr) (Plan.managed_base hm)
      (by simpa using hlen) k
  have hbase : s.base ∈ s.roots := List.mem_cons_self
  simp only [Spaces.read]
  by_cases hp : p ∈ s.roots
  · have hp' : p ∈ (⟨h', s.base, q :: s.made⟩ : Spaces A W P S).roots := by
      simp only [Spaces.roots, List.mem_cons] at hp ⊢
      tauto
    rw [if_pos hp, if_pos hp']
    exact hold hp
  · rw [if_neg hp]
    split
    · rename_i hp'
      -- `p` is the root just made
      obtain rfl : p = q := by
        simp only [Spaces.roots, List.mem_cons] at hp hp'
        tauto
      exact hC.lookup_new hI.typed (hI.root _ hbase) (Plan.managed_base hm) hlen k
    · exact hold hbase

omit [DecidableEq A] in
theorem Format.Write.read [DecidableEq I] {p : P} {is js : List I} {j k : I} {w : W}
    {c' : P → Option (List I × P)} {h' : Heap A W S} (hI : Inv F B depth Foreign c s)
    (hp : p ∈ s.roots) (hw : F.Write B ⟨depth, s.base, Foreign⟩ c s.heap p p is j w c' h')
    (hm : (⟨depth, p, Foreign⟩ : Plan I P).Managed [] js) (hl : js.length + 1 = depth) :
    ({ s with heap := h' } : Spaces A W P S).read F p js k =
      (if (is, j) = (js, k) then some w else none).getD (s.read F p js k) := by
  have hp' : p ∈ ({ s with heap := h' } : Spaces A W P S).roots := hp
  rw [Spaces.read, Spaces.read, if_pos hp, if_pos hp']
  split
  · rename_i e
    cases e
    exact hw.same
  · rename_i e
    exact hw.other (hI.root p hp) (Plan.managed_base hm) (by simpa using hl)
      fun e' => e (by simpa using e'.symm)

/-- **A root is a finite map.**  An operation on `p` leaves in each leaf of `p` the word it is
to leave there, or the word that was there. -/
theorem Inv.read_step [DecidableEq I] (hI : Inv F B depth Foreign c s) {op : SpaceOp P I W}
    {p : P} (hop : op.On p) (hf : op.Fits depth Foreign) (h : s.step F B op = some s')
    {js : List I} (hm : (⟨depth, p, Foreign⟩ : Plan I P).Managed [] js)
    (hl : js.length + 1 = depth) (k : I) :
    s'.read F p js k = (op.word F.zero js k).getD (s.read F p js k) := by
  cases op with
  | create => exact hI.read_create h hm hl k
  | map q is j w =>
      obtain rfl : q = p := hop
      obtain ⟨c', h', hp, rfl, hw⟩ := hI.map hf h
      exact hw.read hI hp hm hl
  | unmap q is j =>
      obtain rfl : q = p := hop
      obtain ⟨h', hp, rfl, hw⟩ := hI.unmap hf h
      exact hw.read hI hp hm hl

/-- **No other root reads anything different** after a run on the root `a` under indices it did
not inherit. -/
theorem Inv.isolated_lookup {a r : P} {ops : List (SpaceOp P I W)}
    (hr : Run (fun s op s' => s.step F B op = some s') s ops s')
    (hI : Inv F B depth Foreign c s) (ha : a ∈ s.made)
    (hops : ∀ op ∈ ops, op.OnPrivate F depth Foreign c s a) (hroot : r ∈ s.roots) (hne : r ≠ a)
    {js : List I} (hm : (⟨depth, r, Foreign⟩ : Plan I P).Managed [] js) (hl : js.length < depth)
    (k : I) : F.lookup s'.heap.mem r js k = F.lookup s.heap.mem r js k := by
  have hbase : s.base ≠ a := fun e => hI.apart (e ▸ ha)
  refine hI.typed.lookup_congr (hI.root r hroot) (Plan.managed_base hm) (by simpa using hl)
    fun {q x} k hq ho => ?_
  refine Inv.isolated hr hI (List.mem_cons_of_mem _ ha) hops k hq ?_
  rcases ho with e | e
  · exact e ▸ hne
  · exact e ▸ hbase

/-- A root just made has inherited nothing where the base root had nothing. -/
theorem Inv.private_created (hI : Inv F B depth Foreign c s)
    (h : s.step F B .create = some s') :
    ∃ c' a, Inv F B depth Foreign c' s' ∧ s'.made = a :: s.made ∧
      (∀ j, F.entry s'.heap.mem a j = F.entry s.heap.mem s.base j) ∧
      Kept F depth Foreign c s c' s' ∧
      ∀ i, F.present (F.entry s.heap.mem s.base i) = false →
        F.Private c' s'.heap.mem a i a := by
  obtain ⟨c', a, h', rfl, hC, hI', K⟩ := hI.create_inv h
  exact ⟨c', a, hI', rfl, hC.same, K, fun i hi hp => by rw [hC.same i, hi] at hp; cases hp⟩

end Read

end ZeptoOS.Lib
