import ZeptoOS.I386.Vmm

/-!
# I386 — Clone

`vmm_clone_address_space` of `kernel/i386/vmm.c`.  For every table of the source it makes a table
with the source's pages, and links it into the destination; where the source has no table, the
destination keeps what it has.

* `Cloned`: the loop, relative to the machine it started on.
* `clone_faithful_iff`: the destination then translates as the source does if and only if it
  translated nothing where the source has no table.
* `Apart`: two spaces have no table in common.  A clone leaves its two spaces apart, every call
  keeps them apart, and a call on one of them changes no translation of the other.
-/

namespace ZeptoOS.I386
open Lib

/-- What the inner loop stores for an entry of `src_pt`. -/
def cloneWord (entry : Word) : Word :=
  if entry &&& pagePresent = 0 then 0 else (entry &&& frameMask) ||| (entry &&& ~~~frameMask)

/-- `for (int j = 0; j < 1024; j++)` -/
def cloneTable (mem : Store ℕ Word) (srcPt dstPt : ℕ) : Store ℕ Word :=
  (List.finRange 1024).foldl
    (fun mem j => mem.set (slot dstPt j) (cloneWord (mem.cell (slot srcPt j)))) mem

/-- One round of `for (int i = 0; i < 1024; i++)` -/
def cloneEntry (src dst : ℕ) (h : Machine) (i : Fin 1024) : Option Machine :=
  if h.mem.cell (slot src i) &&& pagePresent = 0 then some h
  else do
    let srcPt := (h.mem.cell (slot src i) &&& frameMask).toNat
    let (dstPt, pool) ← pmmAlloc h.pool
    let mem := cloneTable h.mem srcPt dstPt
    some ⟨mem.set (slot dst i)
      (BitVec.ofNat 32 dstPt ||| (mem.cell (slot src i) &&& ~~~frameMask)), pool⟩

/-- `vmm_clone_address_space` -/
def vmmCloneAddressSpace (h : Machine) (src dst : ℕ) : Option Machine :=
  (List.finRange 1024).foldlM (cloneEntry src dst) h

/-! ### Entries -/

theorem cloneWord_of {w : Word} (hw : w = 0 ∨ ¬ w &&& pagePresent = 0) : cloneWord w = w := by
  rcases hw with rfl | hw
  · rfl
  · rw [cloneWord, if_neg hw, ← BitVec.and_or_distrib_left,
      show frameMask ||| ~~~frameMask = BitVec.allOnes 32 by decide, BitVec.and_allOnes]

/-- The entry that links a clone's table leads to the table. -/
theorem target_flags {p : ℕ} (hp : PageAddr 32 p) (e : Word) :
    fmt.target (BitVec.ofNat 32 p ||| (e &&& ~~~frameMask)) = p := by
  have hflags : (e &&& ~~~frameMask) &&& frameMask = 0 := by
    rw [BitVec.and_assoc, show ~~~frameMask &&& frameMask = 0 by decide]
    exact BitVec.and_zero
  rw [← target_eq, frame_or hflags]
  exact frameMask_bits.toNat_page hp.1 hp.2.2

/-- It is present, as the source's entry is. -/
theorem present_flags {w e : Word} (he : fmt.present e) :
    fmt.present (w ||| (e &&& ~~~frameMask)) := by
  rw [present_iff] at he ⊢
  intro h
  rw [BitVec.and_or_distrib_right] at h
  have hflag := (BitVec.or_eq_zero_iff.mp h).2
  rw [BitVec.and_assoc, show ~~~frameMask &&& pagePresent = (1 : Word) by decide] at hflag
  exact he hflag

theorem cell_eq (m : Store ℕ Word) (p : ℕ) (i : Fin 1024) : m.cell (slot p i) = fmt.entry m p i :=
  rfl

theorem cloneTable_eq (m : Store ℕ Word) (p q : ℕ) :
    cloneTable m p q = fmt.copyWith cloneWord m p q := by
  rw [cloneTable, Format.copyWith, indices_eq]
  rfl

theorem cloneEntry_absent {src dst : ℕ} {h h' : Machine} {i : Fin 1024}
    (ha : fmt.present (fmt.entry h.mem src i) = false) (e : cloneEntry src dst h i = some h') :
    h' = h := by
  have ha : h.mem.cell (slot src i) &&& pagePresent = 0 := absent_iff.mp ha
  rw [cloneEntry, if_pos ha] at e
  exact (Option.some.inj e).symm

/-- What a round does where `src` has a table: `dst` has a new table for it, and nothing else
changes. -/
structure Round (s : System) (c : ℕ → Option (List (Fin 1024) × ℕ)) (src dst : ℕ) (i : Fin 1024)
    (c' : ℕ → Option (List (Fin 1024) × ℕ)) (h' : Machine) : Prop where
  inv : Inv fmt pagePool 2 Large c' { s with heap := h' }
  grows : ∀ {r x}, c r = some x → c' r = some x
  linked : fmt.present (fmt.entry h'.mem dst i)
  new : c (fmt.target (fmt.entry h'.mem dst i)) = none
  table : c' (fmt.target (fmt.entry h'.mem dst i)) = some ([i], dst)
  copied : ∀ l, fmt.entry h'.mem (fmt.target (fmt.entry h'.mem dst i)) l =
    cloneWord (fmt.entry s.heap.mem (fmt.target (fmt.entry s.heap.mem src i)) l)
  other : ∀ {r x} (j : Fin 1024), c r = some x → r ≠ dst ∨ j ≠ i →
    fmt.entry h'.mem r j = fmt.entry s.heap.mem r j

/-- **One round of the loop**, where `src` has a table. -/
theorem cloneEntry_present {s : System} {c : ℕ → Option (List (Fin 1024) × ℕ)} {src dst : ℕ}
    {i : Fin 1024} {h' : Machine} (hI : Inv fmt pagePool 2 Large c s) (hsrc : src ∈ s.roots)
    (hdst : dst ∈ s.roots) (hp : fmt.present (fmt.entry s.heap.mem src i))
    (e : cloneEntry src dst s.heap i = some h') : ∃ c', Round s c src dst i c' h' := by
  have hp' : ¬ s.heap.mem.cell (slot src i) &&& pagePresent = 0 := present_iff.mp hp
  rw [cloneEntry, if_neg hp'] at e
  simp only [Option.bind_eq_bind, Option.bind_eq_some_iff, Option.some.injEq] at e
  obtain ⟨⟨q, pool⟩, halloc, rfl⟩ := e
  have htake : pagePool.take s.heap.pool = some (q, pool) := halloc
  have T := hI.typed
  have hfree := pagePool.free_of_take htake
  have hqv : PageAddr 32 q := T.pool hfree
  have hne : ∀ {r x}, c r = some x → r ≠ q := fun hr => T.ne_free hr hfree
  have hcsrc := hI.root src hsrc
  have hcdst := hI.root dst hdst
  obtain ⟨o, ht⟩ := table_of_present T hcsrc hp
  rw [cell_eq, target_eq, cell_eq, cloneTable_eq]
  generalize htgt : fmt.target (fmt.entry s.heap.mem src i) = t at ht ⊢
  have hcopied : ∀ {r x} (j : Fin 1024), c r = some x →
      fmt.entry (fmt.copyWith cloneWord s.heap.mem t q) r j = fmt.entry s.heap.mem r j :=
    fun j hr => Format.copyWith_other hqv (T.valid hr) (hne hr)
  rw [hcopied i hcsrc]
  generalize hw : BitVec.ofNat 32 q ||| (fmt.entry s.heap.mem src i &&& ~~~frameMask) = w
  have hsame : fmt.entry ((fmt.copyWith cloneWord s.heap.mem t q).set (slot dst i) w) dst i = w :=
    Format.entry_set_same _ _ _ _
  have hother : ∀ {r x} (j : Fin 1024), c r = some x → r ≠ dst ∨ j ≠ i →
      fmt.entry ((fmt.copyWith cloneWord s.heap.mem t q).set (slot dst i) w) r j =
        fmt.entry s.heap.mem r j :=
    fun j hr hrj =>
      (Format.entry_set_other (T.valid hcdst) (T.valid hr) hrj).trans (hcopied j hr)
  have hfilled : ∀ l, fmt.entry ((fmt.copyWith cloneWord s.heap.mem t q).set (slot dst i) w) q l =
      cloneWord (fmt.entry s.heap.mem t l) := fun l =>
    (Format.entry_set_other (T.valid hcdst) hqv (.inl (hne hcdst).symm)).trans
      (Format.copyWith_same (T.valid ht) hqv (hne ht))
  have htarget : fmt.target w = q := hw ▸ target_flags hqv _
  generalize (fmt.copyWith cloneWord s.heap.mem t q).set (slot dst i) w = m
    at hsame hother hfilled ⊢
  have hgrows : ∀ {r x}, c r = some x → (if r = q then some ([i], dst) else c r) = some x :=
    fun hr => (if_neg (hne hr)).trans hr
  refine ⟨fun r => if r = q then some ([i], dst) else c r,
    { inv := ⟨T.attach hcdst rfl htake (by rw [hsame]; rfl) (by rw [hsame, htarget])
        (fun j hr _ hrj => hother j hr hrj), fun r hr => hgrows (hI.root r hr), hI.apart, hI.nodup⟩
      grows := hgrows
      linked := by rw [hsame, ← hw]; exact present_flags hp
      new := by rw [hsame, htarget]; exact T.free_eq_none hfree
      table := by rw [hsame, htarget]; exact if_pos rfl
      copied := by rw [hsame, htarget, htgt]; exact hfilled
      other := hother }⟩

/-! ### The loop -/

/-- The loop at the machine `h`, past the entries `done`: `dst` has a new table wherever `src` has
one, with the words `src` had there, and nothing else changed since `s₀`. -/
structure Cloned (s₀ : System) (c₀ : ℕ → Option (List (Fin 1024) × ℕ)) (src dst : ℕ)
    (done : List (Fin 1024)) (c : ℕ → Option (List (Fin 1024) × ℕ)) (h : Machine) : Prop where
  inv : Inv fmt pagePool 2 Large c { s₀ with heap := h }
  grows : ∀ {r x}, c₀ r = some x → c r = some x
  root : ∀ {r} (k : Fin 1024), r ∈ s₀.roots → r ≠ dst →
    fmt.entry h.mem r k = fmt.entry s₀.heap.mem r k
  table : ∀ {t k o} (l : Fin 1024), c₀ t = some ([k], o) →
    fmt.entry h.mem t l = fmt.entry s₀.heap.mem t l
  kept : ∀ k, k ∉ done ∨ fmt.present (fmt.entry s₀.heap.mem src k) = false →
    fmt.entry h.mem dst k = fmt.entry s₀.heap.mem dst k
  made : ∀ k ∈ done, fmt.present (fmt.entry s₀.heap.mem src k) →
    fmt.present (fmt.entry h.mem dst k) ∧ c₀ (fmt.target (fmt.entry h.mem dst k)) = none ∧
      c (fmt.target (fmt.entry h.mem dst k)) = some ([k], dst) ∧
      ∀ l, fmt.entry h.mem (fmt.target (fmt.entry h.mem dst k)) l =
        cloneWord (fmt.entry s₀.heap.mem (fmt.target (fmt.entry s₀.heap.mem src k)) l)

section Loop

variable {s₀ : System} {c₀ c : ℕ → Option (List (Fin 1024) × ℕ)} {src dst : ℕ}
  {done : List (Fin 1024)} {h h' : Machine}

/-- Nothing is done at the start. -/
theorem Cloned.nil (hI : Inv fmt pagePool 2 Large c₀ s₀) :
    Cloned s₀ c₀ src dst [] c₀ s₀.heap where
  inv := hI
  grows := id
  root _ _ _ := rfl
  table _ _ := rfl
  kept _ _ := rfl
  made _ hk := by cases hk

/-- **The loop invariant** is kept by a round. -/
theorem Cloned.entry (hC : Cloned s₀ c₀ src dst done c h) (hI₀ : Inv fmt pagePool 2 Large c₀ s₀)
    (hsrc : src ∈ s₀.roots) (hdst : dst ∈ s₀.roots) (hne : src ≠ dst) {i : Fin 1024}
    (e : cloneEntry src dst h i = some h') : ∃ c', Cloned s₀ c₀ src dst (done ++ [i]) c' h' := by
  have hentry : fmt.entry h.mem src i = fmt.entry s₀.heap.mem src i := hC.root i hsrc hne
  cases hpresent : fmt.present (fmt.entry s₀.heap.mem src i) with
  | false =>
      obtain rfl := cloneEntry_absent (hentry ▸ hpresent) e
      refine ⟨c, hC.inv, hC.grows, hC.root, hC.table, fun k hk => hC.kept k ?_, fun k hk hpr => ?_⟩
      · exact hk.imp_left fun hk h => hk (List.mem_append_left _ h)
      · refine hC.made k ((List.mem_append.mp hk).resolve_right fun h => ?_) hpr
        rw [List.mem_singleton.mp h, hpresent] at hpr
        cases hpr
  | true =>
      obtain ⟨c', R⟩ := cloneEntry_present hC.inv hsrc hdst (hentry ▸ hpresent) e
      have hcdst := hC.inv.root dst hdst
      -- a table of the last level is not the root `dst`
      have htable : ∀ {t k o} (l : Fin 1024), c t = some ([k], o) →
          fmt.entry h'.mem t l = fmt.entry h.mem t l := fun l ht =>
        R.other l ht <| .inl fun e => by
          rw [e, hcdst] at ht
          cases ht
      have hdone : ∀ {k}, k ∈ done ++ [i] → k ≠ i → k ∈ done := fun hk hki =>
        (List.mem_append.mp hk).resolve_right fun h => hki (List.mem_singleton.mp h)
      obtain ⟨o, ht₀⟩ := table_of_present hI₀.typed (hI₀.root src hsrc) hpresent
      refine ⟨c', R.inv, fun hr => R.grows (hC.grows hr), fun k hr hrd => ?_, fun l ht => ?_,
        fun k hk => ?_, fun k hk hpr => ?_⟩
      · exact (R.other k (hC.inv.root _ hr) (.inl hrd)).trans (hC.root k hr hrd)
      · exact (htable l (hC.grows ht)).trans (hC.table l ht)
      · have hki : k ≠ i := by
          rintro rfl
          rcases hk with hk | hk
          · exact hk (List.mem_append_right _ List.mem_cons_self)
          · rw [hk] at hpresent
            cases hpresent
        refine (R.other k hcdst (.inr hki)).trans (hC.kept k ?_)
        exact hk.imp_left fun hk h => hk (List.mem_append_left _ h)
      · by_cases hki : k = i
        · subst hki
          refine ⟨R.linked, ?_, R.table, fun l => (R.copied l).trans ?_⟩
          · cases hc : c₀ (fmt.target (fmt.entry h'.mem dst k)) with
            | none => rfl
            | some x => exact absurd (R.new.symm.trans (hC.grows hc)) (by simp)
          · simp only [hentry]
            exact congrArg cloneWord (hC.table l ht₀)
        · obtain ⟨hp, hc₀, hc, hl⟩ := hC.made k (hdone hk hki) hpr
          simp only [R.other k hcdst (.inr hki)]
          exact ⟨hp, hc₀, R.grows hc, fun l => (htable l hc).trans (hl l)⟩

theorem Cloned.entries (hI₀ : Inv fmt pagePool 2 Large c₀ s₀) (hsrc : src ∈ s₀.roots)
    (hdst : dst ∈ s₀.roots) (hne : src ≠ dst) :
    ∀ (is : List (Fin 1024)) {done c h}, Cloned s₀ c₀ src dst done c h →
      is.foldlM (cloneEntry src dst) h = some h' →
      ∃ c', Cloned s₀ c₀ src dst (done ++ is) c' h'
  | [], _, c, h, hC, e => by
      cases e
      exact ⟨c, by rwa [List.append_nil]⟩
  | i :: is, done, c, h, hC, e => by
      rw [List.foldlM_cons, Option.bind_eq_bind, Option.bind_eq_some_iff] at e
      obtain ⟨h₁, e₁, e₂⟩ := e
      obtain ⟨c₁, hC₁⟩ := hC.entry hI₀ hsrc hdst hne e₁
      obtain ⟨c', hC'⟩ := Cloned.entries hI₀ hsrc hdst hne is hC₁ e₂
      exact ⟨c', by rwa [List.append_assoc] at hC'⟩

/-- **A clone** is the loop past all the entries. -/
theorem vmmCloneAddressSpace_cloned (hI₀ : Inv fmt pagePool 2 Large c₀ s₀) (hsrc : src ∈ s₀.roots)
    (hdst : dst ∈ s₀.roots) (hne : src ≠ dst)
    (e : vmmCloneAddressSpace s₀.heap src dst = some h') :
    ∃ c', Cloned s₀ c₀ src dst (List.finRange 1024) c' h' := by
  obtain ⟨c', hC⟩ := Cloned.entries hI₀ hsrc hdst hne _ (.nil hI₀) e
  rw [List.nil_append] at hC
  exact ⟨c', hC⟩

end Loop

/-! ### Calls on one page -/

/-- What a store at `i`, `j` below the root `p` does: `q` is the table there, found or made. -/
structure Stored (c : ℕ → Option (List (Fin 1024) × ℕ)) (h : Machine) (p : ℕ) (i j : Fin 1024)
    (h' : Machine) (q : ℕ) : Prop where
  found : fmt.present (fmt.entry h.mem p i) → q = fmt.target (fmt.entry h.mem p i)
  made : fmt.present (fmt.entry h.mem p i) = false → c q = none
  root : ∀ {r o} (k : Fin 1024), c r = some ([], o) →
    fmt.entry h'.mem r k = fmt.entry h.mem r k ∨
      r = p ∧ k = i ∧ fmt.present (fmt.entry h.mem p i) = false ∧
        fmt.target (fmt.entry h'.mem r k) = q
  table : ∀ {t k o} (l : Fin 1024), c t = some ([k], o) → t ≠ q ∨ l ≠ j →
    fmt.entry h'.mem t l = fmt.entry h.mem t l

section Store

variable {s : System} {c : ℕ → Option (List (Fin 1024) × ℕ)} {base p o : ℕ} {i j : Fin 1024}
  {h h' : Machine} {w : Word}

/-- A store into the table that is there. -/
theorem stored_found (T : fmt.Typed pagePool ⟨2, base, Large⟩ c h) (hp : c p = some ([], o))
    (hpr : fmt.present (fmt.entry h.mem p i)) :
    Stored c h p i j
      ⟨h.mem.set (fmt.slot (fmt.target (fmt.entry h.mem p i)) j) w, h.pool⟩
      (fmt.target (fmt.entry h.mem p i)) := by
  obtain ⟨o₁, ht⟩ := table_of_present T hp hpr
  refine ⟨fun _ => rfl, fun ha => absurd (ha.symm.trans hpr) (by decide), fun k hr => .inl ?_,
    fun l ht' hl => Format.entry_set_other (T.valid ht) (T.valid ht') hl⟩
  refine Format.entry_set_other (T.valid ht) (T.valid hr) (.inl fun e => ?_)
  rw [e, ht] at hr
  cases hr

/-- **Mapping** stores into one table. -/
theorem mapLeaf_stored (T : fmt.Typed pagePool ⟨2, base, Large⟩ c h) (hp : c p = some ([], o))
    (e : fmt.mapLeaf pagePool h p [i] j w = some h') : ∃ q, Stored c h p i j h' q := by
  rw [Format.mapLeaf, descend_one] at e
  cases hpr : fmt.present (fmt.entry h.mem p i) with
  | true =>
      obtain ⟨o₁, ht⟩ := table_of_present T hp hpr
      rw [Format.next, if_pos hpr, Option.map_some, if_neg (fmt.ne_null (T.valid ht))] at e
      cases e
      exact ⟨_, stored_found T hp hpr⟩
  | false =>
      simp only [Format.next, hpr, Bool.false_eq_true, if_false, if_true, Option.map_map,
        Option.map_eq_some_iff, Function.comp_apply] at e
      obtain ⟨⟨q, pool⟩, htake, e⟩ := e
      have hfree := pagePool.free_of_take htake
      have hqv := T.pool hfree
      have hne : ∀ {r x}, c r = some x → r ≠ q := fun hr => T.ne_free hr hfree
      have hlink := Format.entry_link_same (F := fmt) (m := h.mem) (p := p) (q := q) (i := i)
      rw [hlink, fmt.target_link hqv, if_neg (fmt.ne_null hqv)] at e
      subst e
      have hset : ∀ {r x} (k : Fin 1024), c r = some x →
          fmt.entry (((fmt.clear h.mem q).set (fmt.slot p i) (fmt.link q)).set (fmt.slot q j) w)
            r k = fmt.entry ((fmt.clear h.mem q).set (fmt.slot p i) (fmt.link q)) r k :=
        fun k hr => Format.entry_set_other hqv (T.valid hr) (.inl (hne hr))
      refine ⟨q, ⟨fun hp => absurd (hpr.symm.trans hp) (by decide), fun _ => T.free_eq_none hfree,
        fun {r o} k hr => ?_, fun l ht _ => ?_⟩⟩
      · simp only [hset k hr]
        by_cases hrk : r = p ∧ k = i
        · obtain ⟨rfl, rfl⟩ := hrk
          exact .inr ⟨rfl, rfl, hpr, by rw [hlink, fmt.target_link hqv]⟩
        · exact .inl (Format.entry_link_other (T.valid hp) hqv (T.valid hr) (hne hr) (by tauto))
      · simp only [hset l ht]
        refine Format.entry_link_other (T.valid hp) hqv (T.valid ht) (hne ht) (.inl fun e => ?_)
        rw [e, hp] at ht
        cases ht

/-- **Unmapping** stores into one table, if it is there. -/
theorem unmapLeaf_stored (T : fmt.Typed pagePool ⟨2, base, Large⟩ c h) (hp : c p = some ([], o))
    (e : fmt.unmapLeaf pagePool h p [i] j = some h') : ∃ q, Stored c h p i j h' q := by
  rw [Format.unmapLeaf, descend_one] at e
  cases hpr : fmt.present (fmt.entry h.mem p i) with
  | true =>
      obtain ⟨o₁, ht⟩ := table_of_present T hp hpr
      rw [Format.next, if_pos hpr, Option.map_some, if_neg (fmt.ne_null (T.valid ht))] at e
      cases e
      exact ⟨_, stored_found T hp hpr⟩
  | false =>
      simp only [Format.next, hpr, Bool.false_eq_true, if_false, Option.map_some, if_true,
        Option.some.injEq] at e
      subst e
      -- no table of the typing is `NULL`
      refine ⟨fmt.null, ⟨fun hp => absurd (hpr.symm.trans hp) (by decide), fun _ => ?_,
        fun k _ => .inl rfl, fun l _ _ => rfl⟩⟩
      cases hc : c fmt.null with
      | none => rfl
      | some x => exact absurd rfl (fmt.ne_null (T.valid hc))

theorem managed_one {base : ℕ} (k : Fin 1024) :
    (⟨2, base, Large⟩ : Plan (Fin 1024) ℕ).Managed [] [k] := ⟨id, trivial⟩

theorem lookup_one (m : Store ℕ Word) (r : ℕ) (k l : Fin 1024) :
    fmt.lookup m r [k] l =
      if fmt.present (fmt.entry m r k) then fmt.entry m (fmt.target (fmt.entry m r k)) l
      else 0 := by
  split
  · rename_i hp
    exact Format.lookup_cons hp rfl [] l
  · rename_i hp
    exact Format.lookup_absent (Bool.not_eq_true _ ▸ hp) [] l

/-- A word that a clone keeps: 0, or a present entry. -/
def Leaf (w : Word) : Prop := w = 0 ∨ ¬ w &&& pagePresent = 0

/-- A call on a page of `p` is a store of a leaf. -/
theorem step_stored (hI : Inv fmt pagePool 2 Large c s) {s' : System} {call : VmmCall 32}
    (hc : call.Changes p) (e : Step s call s') :
    ∃ c' h' i j w q, p ∈ s.roots ∧ s' = { s with heap := h' } ∧ Leaf w ∧
      fmt.Write pagePool ⟨2, s.base, Large⟩ c s.heap p p [i] j w c' h' ∧
      Stored c s.heap p i j h' q := by
  have hfits := toOp_fits call
  rw [Step, step_eq hI] at e
  cases call with
  | create => exact hc.elim
  | map pd virt phys flags =>
      obtain rfl : pd = p := hc
      obtain ⟨c', h', hp, rfl, hw⟩ := hI.map hfits e
      simp only [Spaces.step, toOp, if_pos hp, Option.map_eq_some_iff] at e
      obtain ⟨h₁, e, hs⟩ := e
      cases hs
      obtain ⟨q, hS⟩ := mapLeaf_stored hI.typed (hI.root pd hp) e
      exact ⟨c', h', _, _, _, q, hp, rfl, .inr (present_or (by decide)), hw, hS⟩
  | unmap pd virt =>
      obtain rfl : pd = p := hc
      obtain ⟨h', hp, rfl, hw⟩ := hI.unmap hfits e
      simp only [Spaces.step, toOp, if_pos hp, Option.map_eq_some_iff] at e
      obtain ⟨h₁, e, hs⟩ := e
      cases hs
      obtain ⟨q, hS⟩ := unmapLeaf_stored hI.typed (hI.root pd hp) e
      exact ⟨c, h', _, _, _, q, hp, rfl, .inl rfl, hw, hS⟩

end Store

/-! ### Spaces apart -/

/-- The two spaces have no table in common. -/
def Apart (m : Store ℕ Word) (a b : ℕ) : Prop :=
  ∀ k, fmt.present (fmt.entry m a k) → fmt.present (fmt.entry m b k) →
    fmt.target (fmt.entry m a k) ≠ fmt.target (fmt.entry m b k)

theorem Apart.symm {m : Store ℕ Word} {a b : ℕ} (hA : Apart m a b) : Apart m b a :=
  fun k hb ha e => hA k ha hb e.symm

section Apart

variable {s s' : System} {c : ℕ → Option (List (Fin 1024) × ℕ)} {a b p q : ℕ} {i j : Fin 1024}
  {h' : Machine}

/-- A table of `b` is not the one a store makes, or finds under a root that does not share it. -/
theorem Stored.ne_table (hS : Stored c s.heap p i j h' q) (hI : Inv fmt pagePool 2 Large c s)
    (hb : b ∈ s.roots) (hpr : fmt.present (fmt.entry s.heap.mem b i))
    (hne : fmt.present (fmt.entry s.heap.mem p i) →
      fmt.target (fmt.entry s.heap.mem p i) ≠ fmt.target (fmt.entry s.heap.mem b i)) :
    fmt.target (fmt.entry s.heap.mem b i) ≠ q := by
  obtain ⟨o, ht⟩ := table_of_present hI.typed (hI.root b hb) hpr
  intro e
  cases hp : fmt.present (fmt.entry s.heap.mem p i) with
  | true => exact hne hp ((hS.found hp).symm.trans e.symm)
  | false =>
      rw [e, hS.made hp] at ht
      cases ht

/-- A store below one of two spaces that are apart changes no leaf of the other. -/
theorem Stored.lookup_apart (hS : Stored c s.heap p i j h' q) (hI : Inv fmt pagePool 2 Large c s)
    {c' : ℕ → Option (List (Fin 1024) × ℕ)} {w : Word}
    (hw : fmt.Write pagePool ⟨2, s.base, Large⟩ c s.heap p p [i] j w c' h') (hb : b ∈ s.roots)
    (hne : b ≠ p) (hA : Apart s.heap.mem p b) (k l : Fin 1024) :
    fmt.lookup h'.mem b [k] l = fmt.lookup s.heap.mem b [k] l := by
  have hcb := hI.root b hb
  by_cases hki : k = i
  · subst hki
    have hroot : fmt.entry h'.mem b k = fmt.entry s.heap.mem b k :=
      (hS.root k hcb).resolve_right fun h => hne h.1
    rw [lookup_one, lookup_one, hroot]
    split
    · rename_i hpr
      obtain ⟨o, ht⟩ := table_of_present hI.typed hcb hpr
      exact hS.table l ht (.inl (hS.ne_table hI hb hpr fun hp => hA k hp hpr))
    · rfl
  · exact hw.other hcb (managed_one k) rfl fun e => hki (by simpa using congrArg Prod.fst e)

/-- The table a store makes under `a` is no table of `b`. -/
theorem Stored.apart_made (hS : Stored c s.heap a i j h' q) (hI : Inv fmt pagePool 2 Large c s)
    (hb : b ∈ s.roots) (habs : fmt.present (fmt.entry s.heap.mem a i) = false)
    (hpr : fmt.present (fmt.entry s.heap.mem b i)) : fmt.target (fmt.entry s.heap.mem b i) ≠ q :=
  hS.ne_table hI hb hpr fun hp => absurd (habs.symm.trans hp) (by decide)

/-- **Spaces stay apart** under every call. -/
theorem Apart.step (hA : Apart s.heap.mem a b) (hI : Inv fmt pagePool 2 Large c s)
    (ha : a ∈ s.roots) (hb : b ∈ s.roots) (hne : a ≠ b) {call : VmmCall 32}
    (e : Step s call s') : Apart s'.heap.mem a b := by
  have hca := hI.root a ha
  have hcb := hI.root b hb
  have hstored : ∀ {p : ℕ}, call.Changes p → Apart s'.heap.mem a b := fun {p} hc => by
    obtain ⟨c', h', i, j, w, q, hp, rfl, -, -, hS⟩ := step_stored hI hc e
    intro k hpa hpb
    rcases hS.root k hca with ea | ⟨rfl, rfl, habs, ea⟩
    · rcases hS.root k hcb with eb | ⟨rfl, rfl, habs, eb⟩
      · simp only [ea, eb] at hpa hpb ⊢
        exact hA k hpa hpb
      · simp only [ea] at hpa ⊢
        exact eb ▸ hS.apart_made hI ha habs hpa
    · have eb : fmt.entry h'.mem b k = fmt.entry s.heap.mem b k :=
        (hS.root k hcb).resolve_right fun h => hne h.1.symm
      simp only [eb] at hpb ⊢
      exact ea ▸ (hS.apart_made hI hb habs hpb).symm
  cases call with
  | create =>
      rw [Step, step_eq hI] at e
      obtain ⟨c', q, h', rfl, -, hC⟩ := hI.create e
      intro k
      simp only [hC.frame k hca, hC.frame k hcb]
      exact hA k
  | map pd virt phys flags => exact hstored (p := pd) rfl
  | unmap pd virt => exact hstored (p := pd) rfl

/-- **Spaces that are apart are independent** in every later state. -/
theorem Apart.independent (hA : Apart s.heap.mem a b) (hI : Inv fmt pagePool 2 Large c s)
    (ha : a ∈ s.roots) (hb : b ∈ s.roots) (hne : a ≠ b) {calls : List (VmmCall 32)} {s₁ s₂ : System}
    (hr : Run Step s calls s₁) {call : VmmCall 32} (hc : call.Changes a) (e : Step s₁ call s₂)
    (v : Word) : vmmGetPhysAddr s₂.heap b v = vmmGetPhysAddr s₁.heap b v := by
  induction hr generalizing c with
  | refl =>
      obtain ⟨c', h', i, j, w, q, hp, rfl, -, hw, hS⟩ := step_stored hI hc e
      rw [vmmGetPhysAddr_eq hw.typed (hw.grows (hI.root b hb)),
        vmmGetPhysAddr_eq hI.typed (hI.root b hb), path,
        hS.lookup_apart hI hw hb (Ne.symm hne) hA]
  | more h _ ih =>
      have h' := h
      rw [Step, step_eq hI] at h'
      obtain ⟨c₁, hI₁, K⟩ := hI.step (toOp_fits _) h'
      exact ih (hA.step hI ha hb hne h) hI₁ (K.roots ha) (K.roots hb) e

end Apart

/-! ### What a clone translates -/

/-- Every word of a page table is one that a clone keeps. -/
def Leaves (s : System) : Prop := ∀ r ∈ s.roots, ∀ k l, Leaf (fmt.lookup s.heap.mem r [k] l)

section Leaves

variable {s s' : System} {c : ℕ → Option (List (Fin 1024) × ℕ)}

theorem Leaves.stored (hL : Leaves s) (hI : Inv fmt pagePool 2 Large c s)
    {c' : ℕ → Option (List (Fin 1024) × ℕ)} {h' : Machine} {p q : ℕ} {i j : Fin 1024} {w : Word}
    (hp : p ∈ s.roots) (hS : Stored c s.heap p i j h' q)
    (hw : fmt.Write pagePool ⟨2, s.base, Large⟩ c s.heap p p [i] j w c' h') (hlf : Leaf w) :
    Leaves { s with heap := h' } := by
  intro r hr k l
  have hr : r ∈ s.roots := hr
  have hsame : Leaf (fmt.lookup h'.mem p [i] j) := by rwa [hw.same]
  by_cases hkl : ([k], l) = ([i], j)
  · cases hkl
    by_cases hrp : r = p
    · exact hrp ▸ hsame
    -- the leaf of another root is in the table stored into, or as it was
    have hroot : fmt.entry h'.mem r i = fmt.entry s.heap.mem r i :=
      (hS.root i (hI.root r hr)).resolve_right fun h => hrp h.1
    have hold := hL r hr i j
    simp only [lookup_one, hroot] at hold ⊢
    split
    · rename_i hpr
      rw [if_pos hpr] at hold
      obtain ⟨o, ht⟩ := table_of_present hI.typed (hI.root r hr) hpr
      by_cases htq : fmt.target (fmt.entry s.heap.mem r i) = q
      · cases hpp : fmt.present (fmt.entry s.heap.mem p i) with
        | true =>
            have hentry : fmt.entry h'.mem p i = fmt.entry s.heap.mem p i :=
              (hS.root i (hI.root p hp)).resolve_right fun h =>
                absurd (hpp.symm.trans h.2.2.1) (by decide)
            rw [lookup_one, hentry, if_pos hpp, ← hS.found hpp, ← htq] at hsame
            exact hsame
        | false =>
            rw [htq, hS.made hpp] at ht
            cases ht
      · rw [hS.table j ht (.inl htq)]
        exact hold
    · exact .inl rfl
  · have hother : fmt.lookup h'.mem r [k] l = fmt.lookup s.heap.mem r [k] l :=
      hw.other (hI.root r hr) (managed_one k) rfl hkl
    simp only [hother]
    exact hL r hr k l

theorem Leaves.step (hL : Leaves s) (hI : Inv fmt pagePool 2 Large c s) {call : VmmCall 32}
    (e : Step s call s') : Leaves s' := by
  have hstored : ∀ {p : ℕ}, call.Changes p → Leaves s' := fun {p} hc => by
    obtain ⟨c', h', i, j, w, q, hp, rfl, hlf, hw, hS⟩ := step_stored hI hc e
    exact hL.stored hI hp hS hw hlf
  cases call with
  | create =>
      rw [Step, step_eq hI] at e
      obtain ⟨c', q, h', rfl, -, hC⟩ := hI.create e
      have hold : ∀ {r}, r ∈ s.roots → ∀ k l,
          fmt.lookup h'.mem r [k] l = fmt.lookup s.heap.mem r [k] l := fun hr k l =>
        hC.lookup_old hI.typed (hI.root _ hr) (managed_one k) (by simp) l
      intro r hr k l
      simp only [Spaces.roots, List.mem_cons] at hr
      rcases hr with rfl | rfl | hr
      · exact (hold List.mem_cons_self k l).symm ▸ hL s.base List.mem_cons_self k l
      · have hnew : fmt.lookup h'.mem r [k] l = fmt.lookup s.heap.mem s.base [k] l :=
          hC.lookup_new hI.typed (hI.root _ List.mem_cons_self) (managed_one k) (by simp) l
        exact hnew.symm ▸ hL s.base List.mem_cons_self k l
      · exact (hold (List.mem_cons_of_mem _ hr) k l).symm ▸ hL r (List.mem_cons_of_mem _ hr) k l
  | map pd virt phys flags => exact hstored (p := pd) rfl
  | unmap pd virt => exact hstored (p := pd) rfl

/-- **Every word of a page table is 0 or present**, in every state of a run. -/
theorem Leaves.run {calls : List (VmmCall 32)} (hr : Run Step s calls s') (hL : Leaves s)
    (hI : Inv fmt pagePool 2 Large c s) : Leaves s' := by
  induction hr generalizing c with
  | refl => exact hL
  | more h _ ih =>
      have h' := h
      rw [Step, step_eq hI] at h'
      obtain ⟨c₁, hI₁, -⟩ := hI.step (toOp_fits _) h'
      exact ih (hL.step hI h) hI₁

end Leaves

section Clone

variable {s : System} {c₀ c : ℕ → Option (List (Fin 1024) × ℕ)} {src dst : ℕ} {h' : Machine}

theorem Cloned.lookup_src (hC : Cloned s c₀ src dst (List.finRange 1024) c h')
    (hI : Inv fmt pagePool 2 Large c₀ s) (hsrc : src ∈ s.roots) (hne : src ≠ dst)
    (k l : Fin 1024) : fmt.lookup h'.mem src [k] l = fmt.lookup s.heap.mem src [k] l := by
  rw [lookup_one, lookup_one, hC.root k hsrc hne]
  split
  · rename_i hpr
    obtain ⟨o, ht⟩ := table_of_present hI.typed (hI.root src hsrc) hpr
    exact hC.table l ht
  · rfl

/-- The leaves of the destination: those of the source where it has a table, or its own. -/
theorem Cloned.lookup_dst (hC : Cloned s c₀ src dst (List.finRange 1024) c h')
    (hI : Inv fmt pagePool 2 Large c₀ s) (hL : Leaves s) (hsrc : src ∈ s.roots)
    (hdst : dst ∈ s.roots) (k l : Fin 1024) :
    fmt.lookup h'.mem dst [k] l =
      if fmt.present (fmt.entry s.heap.mem src k) then fmt.lookup s.heap.mem src [k] l
      else fmt.lookup s.heap.mem dst [k] l := by
  split
  · rename_i hpr
    obtain ⟨hlinked, -, -, hcopied⟩ := hC.made k (List.mem_finRange k) hpr
    have hleaf := hL src hsrc k l
    rw [lookup_one, if_pos hpr] at hleaf
    rw [lookup_one, if_pos hlinked, hcopied, lookup_one, if_pos hpr, cloneWord_of hleaf]
  · rename_i habs
    have hentry := hC.kept k (.inr (Bool.not_eq_true _ ▸ habs))
    rw [lookup_one, lookup_one, hentry]
    split
    · rename_i hpr
      obtain ⟨o, ht⟩ := table_of_present hI.typed (hI.root dst hdst) hpr
      exact hC.table l ht
    · rfl

/-- **A clone is faithful** if and only if the destination translated nothing where the source has
no table. -/
theorem Cloned.faithful_iff (hC : Cloned s c₀ src dst (List.finRange 1024) c h')
    (hI : Inv fmt pagePool 2 Large c₀ s) (hL : Leaves s) (hsrc : src ∈ s.roots)
    (hdst : dst ∈ s.roots) (hne : src ≠ dst) :
    (∀ v, vmmGetPhysAddr h' dst v = vmmGetPhysAddr h' src v) ↔
      ∀ v, s.heap.mem.cell (slot src (pdIdx v)) &&& pagePresent = 0 →
        vmmGetPhysAddr s.heap dst v = some 0 := by
  have habs : ∀ {v}, s.heap.mem.cell (slot src (pdIdx v)) &&& pagePresent = 0 ↔
      ¬ fmt.present (fmt.entry s.heap.mem src (pdIdx v)) :=
    fun {v} => by rw [cell_eq, present_iff, not_not]
  refine forall_congr' fun v => ?_
  rw [habs, vmmGetPhysAddr_eq hC.inv.typed (hC.inv.root dst hdst),
    vmmGetPhysAddr_eq hC.inv.typed (hC.inv.root src hsrc),
    vmmGetPhysAddr_eq hI.typed (hI.root dst hdst), path, hC.lookup_src hI hsrc hne,
    hC.lookup_dst hI hL hsrc hdst]
  split
  · rename_i hpr
    exact ⟨fun _ h => absurd hpr h, fun _ => rfl⟩
  · rename_i hpr
    have hzero : fmt.lookup s.heap.mem src [pdIdx v] (ptIdx v) = 0 := by
      rw [lookup_one, if_neg hpr]
    rw [hzero, show (0 : Word) &&& frameMask = 0 by decide]
    exact ⟨fun h _ => h, fun h => h hpr⟩

/-- **A clone leaves its spaces apart.** -/
theorem Cloned.apart (hC : Cloned s c₀ src dst (List.finRange 1024) c h')
    (hI : Inv fmt pagePool 2 Large c₀ s) (hsrc : src ∈ s.roots) (hne : src ≠ dst) :
    Apart h'.mem src dst := by
  intro k hs hd e
  rw [hC.root k hsrc hne] at hs e
  obtain ⟨o, ht⟩ := table_of_present hI.typed (hI.root src hsrc) hs
  -- the table of the destination was none before
  rw [e, (hC.made k (List.mem_finRange k) hs).2.1] at ht
  cases ht

end Clone

end ZeptoOS.I386
