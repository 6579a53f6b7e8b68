import ZeptoOS.Fs.Vfs

/-!
# Fs — Resolve

What `vfs_resolve_path` resolves a path to: the node reached from the root node by walking the
components of the path with `vfs_finddir` (`vfsResolvePath_eq`), which is a fold over them
(`resolve_is_fold`).  The root node is the one last mounted at `/` (`rootNode_eq`); the mount table
is not looked at, so a mount elsewhere is not seen (`mounted_not_resolved`).
-/

namespace ZeptoOS.Fs
open Lib

variable {N σ : Type*} {D : Driver N σ}

/-- The node reached from `current` by the components `cs`, and the drivers' state after. -/
def walkPath (D : Driver N σ) (current : N) : List (List StrChar) → σ → Option N × σ
  | [], s => (some current, s)
  | c :: cs, s =>
      match vfsFinddir D (some current) c s with
      | (none, s) => (none, s)
      | (some n, s) => walkPath D n cs s

/-- A walk goes on from where its first part ends. -/
theorem walkPath_append {cs ds : List (List StrChar)} {r n : N} {s s' : σ}
    (h : walkPath D r cs s = (some n, s')) : walkPath D r (cs ++ ds) s = walkPath D n ds s' := by
  induction cs generalizing r s with
  | nil =>
      obtain ⟨hn, rfl⟩ := Prod.mk.inj h
      obtain rfl := Option.some.inj hn
      rfl
  | cons c cs ih =>
      rw [List.cons_append, walkPath]
      rw [walkPath] at h
      split at h
      · cases h
      · exact ih h

/-! ### One token -/

/-- A token is what stands before the next slash. -/
theorem readToken_ok {room : ℕ} {path token rest : List StrChar}
    (h : readToken room path = .ok (token, rest)) :
    path = token ++ rest ∧ slash ∉ token ∧ (rest = [] ∨ rest = slash :: skipSlash rest) := by
  induction path generalizing room token with
  | nil =>
      cases room with
      | zero => cases h
      | succ room =>
          cases h
          exact ⟨rfl, List.not_mem_nil, .inl rfl⟩
  | cons c cs ih =>
      cases room with
      | zero => cases h
      | succ room =>
          rw [readToken] at h
          split at h
          · rename_i hc
            cases h
            subst hc
            exact ⟨rfl, List.not_mem_nil, .inr (by rw [skipSlash, if_pos rfl])⟩
          · rename_i hc
            split at h
            · cases h
            · rename_i token' rest' hread
              cases h
              obtain ⟨rfl, hslash, hrest⟩ := ih hread
              refine ⟨rfl, fun hmem => ?_, hrest⟩
              rcases List.mem_cons.mp hmem with e | hmem
              · exact hc e.symm
              · exact hslash hmem

/-- Reading fails on a token that `token` has no room for. -/
theorem readToken_error {room : ℕ} {path : List StrChar} {e : Fault}
    (h : readToken room path = .error e) :
    ∃ token rest, path = token ++ rest ∧ slash ∉ token ∧ token.length = room := by
  induction path generalizing room with
  | nil =>
      cases room with
      | zero => exact ⟨[], [], rfl, List.not_mem_nil, rfl⟩
      | succ room => cases h
  | cons c cs ih =>
      cases room with
      | zero => exact ⟨[], c :: cs, rfl, List.not_mem_nil, rfl⟩
      | succ room =>
          rw [readToken] at h
          split at h
          · cases h
          · rename_i hc
            split at h
            · rename_i e' hread
              obtain ⟨token, rest, rfl, hslash, hlen⟩ := ih hread
              refine ⟨c :: token, rest, rfl, fun hmem => ?_, congrArg (· + 1) hlen⟩
              rcases List.mem_cons.mp hmem with e | hmem
              · exact hc e.symm
              · exact hslash hmem
            · cases h

/-- A token is the first component of the path it is read from. -/
theorem components_readToken {room : ℕ} {path token rest : List StrChar}
    (h : readToken room path = .ok (token, rest)) :
    components slash path = consNonempty token (components slash (skipSlash rest)) := by
  obtain ⟨rfl, hslash, hrest⟩ := readToken_ok h
  rcases hrest with rfl | hrest
  · rw [List.append_nil]
    exact components_token hslash
  · rw [hrest, components_append, components_token hslash, ← consNonempty_append]
    rw [skipSlash, if_pos rfl]
    rfl

/-! ### The loop -/

/-- The components of `path` fit into `token`. -/
def Fits (path : List StrChar) : Prop := ∀ c ∈ components slash path, c.length < pathSize

instance (path : List StrChar) : Decidable (Fits path) :=
  inferInstanceAs (Decidable (∀ c ∈ components slash path, c.length < pathSize))

/-- **The loop walks the components.** -/
theorem resolveLoop_eq {current : N} {path : List StrChar} {s : σ} (hfits : Fits path) :
    resolveLoop D current path s = .ok (walkPath D current (components slash path) s) := by
  fun_induction resolveLoop D current path s with
  | case1 current s => rfl
  | case2 current s c cs e h =>
      obtain ⟨token, rest, hpath, hslash, hlen⟩ := readToken_error h
      have hne : token ≠ [] := fun h₀ => by
        rw [h₀] at hlen
        cases hlen
      rw [hpath] at hfits
      obtain ⟨t, ht, hle⟩ := components_prefix hslash hne rest
      exact absurd (hfits t ht) (by omega)
  | case3 current s c cs rest h _ ih =>
      have hcomp : components slash (c :: cs) = components slash (skipSlash rest) :=
        (components_readToken h).trans (if_pos rfl)
      rw [hcomp]
      exact ih fun t ht => hfits t (hcomp ▸ ht)
  | case4 current s c cs token rest h _ hne s' hfind =>
      have hcomp : components slash (c :: cs) = token :: components slash (skipSlash rest) :=
        (components_readToken h).trans (if_neg hne)
      rw [hcomp, walkPath, hfind]
  | case5 current s c cs token rest h _ hne n s' hfind ih =>
      have hcomp : components slash (c :: cs) = token :: components slash (skipSlash rest) :=
        (components_readToken h).trans (if_neg hne)
      rw [hcomp, walkPath, hfind]
      exact ih fun t ht => hfits t (hcomp ▸ List.mem_cons_of_mem _ ht)

/-- What the loop returns is where the components lead, whether they all fit or not. -/
theorem resolveLoop_ok {current : N} {path : List StrChar} {s : σ} {r : Option N × σ}
    (h : resolveLoop D current path s = .ok r) :
    walkPath D current (components slash path) s = r := by
  fun_induction resolveLoop D current path s with
  | case1 current s => exact Except.ok.inj h
  | case2 current s c cs e _ => cases h
  | case3 current s c cs rest hread _ ih =>
      rw [(components_readToken hread).trans (if_pos rfl)]
      exact ih h
  | case4 current s c cs token rest hread _ hne s' hfind =>
      rw [(components_readToken hread).trans (if_neg hne), walkPath, hfind]
      exact Except.ok.inj h
  | case5 current s c cs token rest hread _ hne n s' hfind ih =>
      rw [(components_readToken hread).trans (if_neg hne), walkPath, hfind]
      exact ih h

/-- What `vfs_resolve_path` returns for an absolute path. -/
theorem vfsResolvePath_ok {v : Vfs N} {root : N} (hroot : v.rootNode = some root)
    {path : List StrChar} {s : σ} {r : Option N × σ}
    (h : vfsResolvePath D v (some (slash :: path)) s = .ok r) :
    walkPath D root (components slash (slash :: path)) s = r := by
  rw [vfsResolvePath, if_neg (not_not_intro rfl), hroot] at h
  rw [components_sep]
  dsimp only at h
  split at h
  · rename_i hpath
    rw [hpath]
    exact Except.ok.inj h
  · exact resolveLoop_ok h

/-- **`vfs_resolve_path` walks the components of an absolute path from the root node**, whatever the
mount table holds. -/
theorem vfsResolvePath_eq {v : Vfs N} {r : N} (hroot : v.rootNode = some r) {path : List StrChar}
    (hfits : Fits (slash :: path)) (s : σ) :
    vfsResolvePath D v (some (slash :: path)) s =
      .ok (walkPath D r (components slash (slash :: path)) s) := by
  rw [vfsResolvePath, if_neg (not_not_intro rfl), hroot, components_sep]
  dsimp only
  split
  · rename_i hpath
    rw [hpath]
    rfl
  · exact resolveLoop_eq fun t ht => hfits t (by rwa [components_sep])

/-! ### The fold -/

/-- `vfs_finddir` along a list of names; once it has found nothing, it finds nothing any more. -/
def foldFinddir (D : Driver N σ) (node : Option N) (names : List (List StrChar)) (s : σ) :
    Option N × σ :=
  names.foldl (fun found name => vfsFinddir D found.1 name found.2) (node, s)

theorem foldFinddir_none (names : List (List StrChar)) (s : σ) :
    foldFinddir D none names s = (none, s) := by
  induction names with
  | nil => rfl
  | cons c cs ih => exact ih

theorem foldFinddir_some (r : N) (names : List (List StrChar)) (s : σ) :
    foldFinddir D (some r) names s = walkPath D r names s := by
  induction names generalizing r s with
  | nil => rfl
  | cons c cs ih =>
      rw [walkPath]
      split
      · rename_i s' hfind
        rw [foldFinddir, List.foldl_cons, hfind]
        exact foldFinddir_none cs s'
      · rename_i n s' hfind
        rw [foldFinddir, List.foldl_cons, hfind]
        exact ih n s'

theorem foldFinddir_append (node : Option N) (cs ds : List (List StrChar)) (s : σ) :
    foldFinddir D node (cs ++ ds) s =
      foldFinddir D (foldFinddir D node cs s).1 ds (foldFinddir D node cs s).2 :=
  List.foldl_append

/-- `vfs_resolve_path` on an absolute path, whatever the root node is. -/
theorem vfsResolvePath_fold (v : Vfs N) {path : List StrChar} (hfits : Fits (slash :: path))
    (s : σ) :
    vfsResolvePath D v (some (slash :: path)) s =
      .ok (foldFinddir D v.rootNode (components slash (slash :: path)) s) := by
  cases hroot : v.rootNode with
  | none =>
      rw [foldFinddir_none, vfsResolvePath, if_neg (not_not_intro rfl), hroot]
  | some r => rw [foldFinddir_some, vfsResolvePath_eq hroot hfits]

/-- Paths with the same components resolve to the same. -/
theorem vfsResolvePath_congr (v : Vfs N) {p q : List StrChar} (hp : Fits (slash :: p))
    (h : components slash (slash :: q) = components slash (slash :: p)) (s : σ) :
    vfsResolvePath D v (some (slash :: q)) s = vfsResolvePath D v (some (slash :: p)) s := by
  have hq : Fits (slash :: q) := fun c hc => hp c (h ▸ hc)
  rw [vfsResolvePath_fold v hq, vfsResolvePath_fold v hp, h]

theorem Fits.append {p q : List StrChar} (hp : Fits p) (hq : Fits q) : Fits (p ++ slash :: q) := by
  intro c hc
  rw [components_append, List.mem_append] at hc
  rcases hc with hc | hc
  · exact hp c hc
  · exact hq c hc

/-- A path extended by a relative one goes on from where it leads to. -/
theorem vfsResolvePath_append (v : Vfs N) {p q : List StrChar} (hp : Fits (slash :: p))
    (hq : Fits q) {s s' : σ} {n : Option N}
    (hn : vfsResolvePath D v (some (slash :: p)) s = .ok (n, s')) :
    vfsResolvePath D v (some (slash :: p ++ slash :: q)) s =
      vfsResolvePath D { v with rootNode := n } (some (slash :: q)) s' := by
  have hpq : Fits (slash :: (p ++ slash :: q)) := hp.append hq
  have hq' : Fits (slash :: q) := by
    intro c hc
    rw [components_sep] at hc
    exact hq c hc
  have hcomp : components slash (slash :: (p ++ slash :: q)) =
      components slash (slash :: p) ++ components slash q := components_append _ _
  rw [vfsResolvePath_fold v hp] at hn
  have hfound := Except.ok.inj hn
  rw [vfsResolvePath_fold _ hq', components_sep, List.cons_append, vfsResolvePath_fold v hpq, hcomp,
    foldFinddir_append, hfound]

/-- **Path resolution is a fold.**  For every root node and all file systems, an absolute path whose
components fit resolves to what `vfs_finddir` finds along its components from the root node.  More
slashes beside one it has or at its end change nothing, and the path extended by a relative one
resolves to what that one does from the node of the path. -/
theorem resolve_is_fold (D : Driver N σ) (v : Vfs N) {p : List StrChar} (hp : Fits (slash :: p))
    (s : σ) :
    vfsResolvePath D v (some (slash :: p)) s =
        .ok (foldFinddir D v.rootNode (components slash (slash :: p)) s) ∧
      (∀ a b n, p = a ++ slash :: b →
        vfsResolvePath D v (some (slash :: (a ++ List.replicate (n + 1) slash ++ b))) s =
          vfsResolvePath D v (some (slash :: p)) s) ∧
      (∀ n, vfsResolvePath D v (some (List.replicate n slash ++ slash :: p)) s =
        vfsResolvePath D v (some (slash :: p)) s) ∧
      (∀ n, vfsResolvePath D v (some (slash :: p ++ List.replicate n slash)) s =
        vfsResolvePath D v (some (slash :: p)) s) ∧
      ∀ q, Fits q → ∀ n s', vfsResolvePath D v (some (slash :: p)) s = .ok (n, s') →
        vfsResolvePath D v (some (slash :: p ++ slash :: q)) s =
          vfsResolvePath D { v with rootNode := n } (some (slash :: q)) s' := by
  refine ⟨vfsResolvePath_fold v hp s, ?_, ?_, ?_, ?_⟩
  · rintro a b n rfl
    refine vfsResolvePath_congr v hp ?_ s
    rw [components_sep, components_sep]
    exact components_append_more a n b
  · intro n
    cases n with
    | zero => rfl
    | succ n => exact vfsResolvePath_congr v hp (components_replicate (n + 1) _) s
  · intro n
    exact vfsResolvePath_congr v hp (components_append_replicate (slash :: p) n) s
  · intro q hq n s' hn
    exact vfsResolvePath_append v hp hq hn

/-- `/m//m/`, where each directory has the next number as its only entry. -/
theorem resolve_is_fold_two_levels :
    ∃ (D : Driver ℕ Unit) (v : Vfs ℕ) (m : StrChar), m ≠ slash ∧
      vfsResolvePath D v (some [slash, m, slash, slash, m, slash]) () = .ok (some 2, ()) := by
  let m : StrChar := ⟨0x6D, by decide⟩
  let D : Driver ℕ Unit := ⟨fun _ _ => 2, fun _ n => some fun _ s => (some (n + 1), s)⟩
  let v : Vfs ℕ := ⟨some 0, []⟩
  obtain ⟨hfold, -⟩ := resolve_is_fold D v (p := [m, slash, slash, m, slash]) (by decide) ()
  have hfound : foldFinddir D v.rootNode (components slash [slash, m, slash, slash, m, slash]) () =
      (some 2, ()) := by decide +kernel
  exact ⟨D, v, m, by decide, hfold.trans (congrArg Except.ok hfound)⟩

/-! ### The root node -/

/-- The node a call mounts at `/`. -/
def mountedRoot : VfsCall N → Option (Option N)
  | .mount path node _ => if path = [slash] then some node else none
  | .umount _ _ => none

/-- The node the last of the calls to mount one at `/` did. -/
def lastRoot (calls : List (VfsCall N)) : Option N :=
  (calls.reverse.findSome? mountedRoot).getD none

theorem rootNode_step {v v' : Vfs N} {call : VfsCall N} (h : VfsStep v call v') :
    v'.rootNode = (mountedRoot call).getD v.rootNode := by
  cases call with
  | mount path node ret =>
      rw [VfsStep, vfsMount] at h
      rw [mountedRoot]
      split at h
      · rename_i hpath
        rw [if_pos (stringCompare_eq_zero.mp hpath)]
        cases h
        rfl
      · rename_i hpath
        rw [if_neg fun e => hpath (stringCompare_eq_zero.mpr e)]
        split at h
        · split at h
          · cases h
            rfl
          · cases h
        · cases h
          rfl
  | umount path ret =>
      rw [VfsStep, vfsUmount] at h
      split at h <;> cases h <;> rfl

/-- The root node is the one last mounted at `/`. -/
theorem rootNode_eq {v : Vfs N} {calls : List (VfsCall N)} (h : Run VfsStep vfsInit calls v) :
    v.rootNode = lastRoot calls :=
  h.latest (I := fun _ => True) (P := fun _ => True) (fun _ _ h => ⟨trivial, rootNode_step h⟩)
    (fun _ _ => trivial) trivial

/-- **Path resolution does not see mounts below the root.**  In every state reached from `vfs_init`
by mounts and unmounts, the last one at `/` with the node `r`: an absolute path whose components fit
resolves to the node reached by walking its components from `r`, and the path extended by a relative
one to the node reached from there. -/
theorem resolve_walks_from_root {calls : List (VfsCall N)} {v : Vfs N}
    (hrun : Run VfsStep vfsInit calls v) {r : N} (hroot : lastRoot calls = some r)
    {p : List StrChar} (habs : p.head? = some slash) (hp : Fits p) (s : σ) :
    vfsResolvePath D v (some p) s = .ok (walkPath D r (components slash p) s) ∧
      ∀ q, Fits q → ∀ n s', vfsResolvePath D v (some p) s = .ok (some n, s') →
        vfsResolvePath D v (some (p ++ slash :: q)) s =
          .ok (walkPath D n (components slash q) s') := by
  rw [← rootNode_eq hrun] at hroot
  cases p with
  | nil => cases habs
  | cons c path =>
      obtain rfl := Option.some.inj habs
      have hwalk := vfsResolvePath_eq (D := D) hroot hp s
      refine ⟨hwalk, fun q hq n s' hn => ?_⟩
      rw [hn] at hwalk
      have hcomp : components slash (slash :: path ++ slash :: q) =
          components slash (slash :: path) ++ components slash q := components_append _ _
      rw [List.cons_append] at hcomp ⊢
      rw [vfsResolvePath_eq hroot, hcomp, walkPath_append (Except.ok.inj hwalk).symm]
      intro t ht
      rw [hcomp, List.mem_append] at ht
      rcases ht with ht | ht
      · exact hp t ht
      · exact hq t ht

/-- Node 2 is mounted at `/m`, where the root directory has the entry 1, which has an entry 3. -/
theorem resolve_walks_from_root_hidden_mount :
    ∃ (D : Driver ℕ Unit) (v : Vfs ℕ) (m : StrChar),
      Run VfsStep vfsInit [.mount [slash] (some 0) 0, .mount [slash, m] (some 2) 0] v ∧
      vfsResolvePath D v (some [slash, m]) () = .ok (some 1, ()) ∧
      vfsResolvePath D v (some [slash, m, slash, m]) () = .ok (some 3, ()) := by
  let m : StrChar := ⟨0x6D, by decide⟩
  let D : Driver ℕ Unit :=
    ⟨fun _ _ => 2, fun _ n => some fun _ s => (if n = 0 then some 1 else some 3, s)⟩
  have hrun : Run VfsStep vfsInit [.mount [slash] (some 0) 0, .mount [slash, m] (some 2) 0]
      (⟨some 0, [⟨[slash], some 0⟩, ⟨[slash, m], some 2⟩]⟩ : Vfs ℕ) := .more rfl (.one rfl)
  obtain ⟨hp, hq⟩ := resolve_walks_from_root (D := D) hrun (r := 0) rfl (p := [slash, m]) rfl
    (by decide) ()
  have hfirst : walkPath D 0 (components slash [slash, m]) () = (some 1, ()) := by decide +kernel
  have hsecond : walkPath D 1 (components slash [m]) () = (some 3, ()) := by decide +kernel
  rw [hfirst] at hp
  exact ⟨D, _, m, hrun, hp, (hq [m] (by decide) 1 () hp).trans (congrArg Except.ok hsecond)⟩

/-- Node 2 is mounted at `/m`, which the root directory has no entry for: the path resolves to
nothing. -/
theorem mounted_not_resolved :
    ∃ (D : Driver ℕ Unit) (v : Vfs ℕ) (m : StrChar), m ≠ slash ∧
      Run VfsStep vfsInit [.mount [slash] (some 0) 0, .mount [slash, m] (some 2) 0] v ∧
      vfsResolvePath D v (some [slash, m]) () = .ok (none, ()) := by
  let m : StrChar := ⟨0x6D, by decide⟩
  let D : Driver ℕ Unit := ⟨fun _ _ => 2, fun _ _ => some fun _ s => (none, s)⟩
  refine ⟨D, ⟨some 0, [⟨[slash], some 0⟩, ⟨[slash, m], some 2⟩]⟩, m, by decide,
    .more rfl (.one rfl), ?_⟩
  have hwalk : walkPath D 0 (components slash [slash, m]) () = (none, ()) := by decide +kernel
  rw [vfsResolvePath_eq rfl (by decide), hwalk]

end ZeptoOS.Fs
