import ZeptoOS.Fs.MountTable

/-!
# Fs — PathStores

Where `vfs.c` stores the characters of a path: the indices at which `vfs_resolve_path` stores into
`token`, and `vfs_mount` and `vfs_umount` into the `path` of a mount point.  The copies have no
bound, so the indices go as far as the string does.

`resolvePathStores_iff` says for which paths they stay inside `token`, and `umountStores_lt` that an
unmount only copies what fits.
-/

namespace ZeptoOS.Fs
open Lib

variable {N σ : Type*} {D : Driver N σ}

/-! ### The indices -/

/-- The indices `string_copy` stores at, from `i` on. -/
def copyStores (i : ℕ) : List StrChar → List ℕ
  | [] => [i]
  | _ :: src => i :: copyStores (i + 1) src

/-- The inner loop of `vfs_resolve_path` from `token[j]` on: the indices it stores at, the token,
and the path from where it ends. -/
def scanToken (j : ℕ) : List StrChar → List ℕ × List StrChar × List StrChar
  | [] => ([j], [], [])
  | c :: path =>
      if c = slash then ([j], [], c :: path)
      else
        let (stores, token, rest) := scanToken (j + 1) path
        (j :: stores, c :: token, rest)

/-- What stands before the next slash, and the path from there. -/
def tokenOf (path : List StrChar) : List StrChar := path.takeWhile (· ≠ slash)
def afterToken (path : List StrChar) : List StrChar := path.dropWhile (· ≠ slash)

@[simp] theorem tokenOf_slash (path : List StrChar) : tokenOf (slash :: path) = [] := by
  simp [tokenOf]

@[simp] theorem afterToken_slash (path : List StrChar) :
    afterToken (slash :: path) = slash :: path := by
  simp [afterToken]

theorem tokenOf_cons {c : StrChar} (hc : c ≠ slash) (path : List StrChar) :
    tokenOf (c :: path) = c :: tokenOf path :=
  List.takeWhile_cons_of_pos (decide_eq_true hc)

theorem afterToken_cons {c : StrChar} (hc : c ≠ slash) (path : List StrChar) :
    afterToken (c :: path) = afterToken path :=
  List.dropWhile_cons_of_pos (decide_eq_true hc)

theorem copyStores_eq (src : List StrChar) (i : ℕ) :
    copyStores i src = List.range' i (src.length + 1) := by
  induction src generalizing i with
  | nil => rfl
  | cons c src ih =>
      rw [copyStores, ih]
      rfl

theorem scanToken_eq (path : List StrChar) (j : ℕ) :
    scanToken j path =
      (List.range' j ((tokenOf path).length + 1), tokenOf path, afterToken path) := by
  induction path generalizing j with
  | nil => rfl
  | cons c path ih =>
      rw [scanToken]
      by_cases hc : c = slash
      · subst hc
        rw [if_pos rfl, tokenOf_slash, afterToken_slash]
        rfl
      · rw [if_neg hc, ih, tokenOf_cons hc, afterToken_cons hc]
        rfl

/-- The loop with a bound reads the same token, where it fits. -/
theorem readToken_eq (path : List StrChar) (room : ℕ) :
    readToken room path =
      if (tokenOf path).length < room then .ok (tokenOf path, afterToken path)
      else .error .overrun := by
  induction path generalizing room with
  | nil => cases room <;> rfl
  | cons c path ih =>
      cases room with
      | zero => rfl
      | succ room =>
          rw [readToken]
          by_cases hc : c = slash
          · subst hc
            rw [if_pos rfl, tokenOf_slash, afterToken_slash, List.length_nil,
              if_pos (Nat.zero_lt_succ room)]
          · rw [if_neg hc, ih, tokenOf_cons hc, afterToken_cons hc, List.length_cons]
            by_cases hfit : (tokenOf path).length < room
            · rw [if_pos hfit, if_pos (Nat.succ_lt_succ hfit)]
            · rw [if_neg hfit, if_neg fun h => hfit (Nat.lt_of_succ_lt_succ h)]

theorem readToken_short {room : ℕ} {path token rest : List StrChar}
    (h : readToken room path = .ok (token, rest)) : token.length < room := by
  rw [readToken_eq] at h
  split at h
  · rename_i hshort
    cases h
    exact hshort
  · cases h

theorem skipSlash_le (path : List StrChar) : (skipSlash path).length ≤ path.length := by
  cases path with
  | nil => exact Nat.le_refl 0
  | cons c cs =>
      rw [skipSlash]
      split
      · exact Nat.le_succ _
      · exact Nat.le_refl _

theorem scanToken_shorter {j : ℕ} {c : StrChar} {cs token rest : List StrChar} {stores : List ℕ}
    (h : scanToken j (c :: cs) = (stores, token, rest)) :
    (skipSlash rest).length ≤ cs.length := by
  rw [scanToken_eq] at h
  obtain rfl : afterToken (c :: cs) = rest := congrArg (·.2.2) h
  by_cases hc : c = slash
  · subst hc
    rw [afterToken_slash, skipSlash, if_pos rfl]
  · rw [afterToken_cons hc]
    exact (skipSlash_le _).trans (List.dropWhile_suffix _).length_le

/-- The stores of a copy stay inside the array, exactly if the string fits. -/
theorem range'_lt_iff {n size : ℕ} : (∀ i ∈ List.range' 0 (n + 1), i < size) ↔ n < size := by
  constructor
  · intro h
    exact h n (List.mem_range'_1.mpr ⟨Nat.zero_le n, by omega⟩)
  · intro h i hi
    have hi' := (List.mem_range'_1.mp hi).2
    omega

/-! ### Path resolution -/

/-- The indices the outer loop of `vfs_resolve_path` stores at. -/
def resolveStores (D : Driver N σ) (current : N) (path : List StrChar) (s : σ) : List ℕ :=
  match path with
  | [] => []
  | c :: cs =>
      match h : scanToken 0 (c :: cs) with
      | (stores, token, rest) =>
          have : (skipSlash rest).length ≤ cs.length := scanToken_shorter h
          stores ++
            if token = [] then resolveStores D current (skipSlash rest) s
            else
              match vfsFinddir D (some current) token s with
              | (none, _) => []
              | (some n, s) => resolveStores D n (skipSlash rest) s
termination_by path.length

/-- The indices `vfs_resolve_path` stores at in `token`. -/
def resolvePathStores (D : Driver N σ) (v : Vfs N) (path : List StrChar) (s : σ) : List ℕ :=
  match path with
  | [] => []
  | c :: cs =>
      if c ≠ slash then []
      else
        match v.rootNode with
        | none => []
        | some current => if cs = [] then [] else resolveStores D current cs s

/-- The names a walk from `r` looks up all fit into `token`. -/
def LookedUpFit (D : Driver N σ) (r : N) (names : List (List StrChar)) (s : σ) : Prop :=
  ∀ before name after, names = before ++ name :: after → (walkPath D r before s).1 ≠ none →
    name.length < pathSize

theorem lookedUpFit_nil (r : N) (s : σ) : LookedUpFit D r [] s := by
  intro before name after h
  simp at h

theorem lookedUpFit_cons {r : N} {name : List StrChar} {names : List (List StrChar)} {s : σ} :
    LookedUpFit D r (name :: names) s ↔ name.length < pathSize ∧
      ∀ n s', vfsFinddir D (some r) name s = (some n, s') → LookedUpFit D n names s' := by
  constructor
  · intro h
    refine ⟨h [] name names rfl (Option.some_ne_none r), ?_⟩
    intro n s' hfind before name' after hnames hwalk
    refine h (name :: before) name' after (congrArg _ hnames) ?_
    rwa [walkPath, hfind]
  · rintro ⟨hname, hrest⟩ before name' after hnames hwalk
    cases before with
    | nil =>
        obtain ⟨rfl, -⟩ := List.cons.inj hnames
        exact hname
    | cons c before =>
        obtain ⟨rfl, htail⟩ := List.cons.inj hnames
        rw [walkPath] at hwalk
        split at hwalk
        · exact absurd rfl hwalk
        · rename_i n s' hfind
          exact hrest n s' hfind before name' after htail hwalk

theorem lookedUpFit_missing {r : N} {name : List StrChar} {names : List (List StrChar)} {s s' : σ}
    (hfind : vfsFinddir D (some r) name s = (none, s')) :
    LookedUpFit D r (name :: names) s ↔ name.length < pathSize := by
  rw [lookedUpFit_cons]
  refine and_iff_left fun n s'' hfind' => ?_
  rw [hfind] at hfind'
  cases hfind'

theorem lookedUpFit_found {r n : N} {name : List StrChar} {names : List (List StrChar)} {s s' : σ}
    (hfind : vfsFinddir D (some r) name s = (some n, s')) :
    LookedUpFit D r (name :: names) s ↔ name.length < pathSize ∧ LookedUpFit D n names s' := by
  rw [lookedUpFit_cons]
  refine and_congr_right fun _ => ?_
  constructor
  · exact fun hfit => hfit n s' hfind
  · intro hfit n' s'' hfind'
    rw [hfind] at hfind'
    cases hfind'
    exact hfit

/-- The first token is the first component, unless it is empty. -/
theorem components_scanToken {path token rest : List StrChar} {stores : List ℕ}
    (h : scanToken 0 path = (stores, token, rest)) :
    stores = List.range' 0 (token.length + 1) ∧
      components slash path = consNonempty token (components slash (skipSlash rest)) := by
  rw [scanToken_eq] at h
  cases h
  have hread : readToken ((tokenOf path).length + 1) path =
      .ok (tokenOf path, afterToken path) := by
    rw [readToken_eq, if_pos (Nat.lt_succ_self _)]
  exact ⟨rfl, components_readToken hread⟩

/-- **The loop stays inside `token`**, exactly if the names it looks up fit. -/
theorem resolveStores_iff {current : N} {path : List StrChar} {s : σ} :
    (∀ i ∈ resolveStores D current path s, i < pathSize) ↔
      LookedUpFit D current (components slash path) s := by
  fun_induction resolveStores D current path s with
  | case1 current s => exact iff_of_true (by simp) (lookedUpFit_nil current s)
  | case2 current s c cs stores token rest h _ ihNone ihSome =>
      obtain ⟨rfl, hcomp⟩ := components_scanToken h
      rw [hcomp, List.forall_mem_append, range'_lt_iff, consNonempty]
      split
      · rename_i hempty
        have hpos : token.length < pathSize := by
          rw [hempty]
          exact Nat.zero_lt_succ 127
        rw [ihNone, and_iff_right hpos]
      · split
        · rename_i hfind
          rw [lookedUpFit_missing hfind]
          exact and_iff_left (by simp)
        · rename_i n s' hfind
          rw [lookedUpFit_found hfind, ihSome]

/-- The loop with the bound returns, exactly if the names it looks up fit. -/
theorem resolveLoop_ok_iff {current : N} {path : List StrChar} {s : σ} :
    (∃ r, resolveLoop D current path s = .ok r) ↔
      LookedUpFit D current (components slash path) s := by
  fun_induction resolveLoop D current path s with
  | case1 current s => exact iff_of_true ⟨_, rfl⟩ (lookedUpFit_nil current s)
  | case2 current s c cs e h =>
      obtain ⟨-, hcomp⟩ := components_scanToken (scanToken_eq (c :: cs) 0)
      rw [readToken_eq] at h
      split at h
      · cases h
      · rename_i hlong
        have hne : tokenOf (c :: cs) ≠ [] := by
          intro h₀
          rw [h₀] at hlong
          exact hlong (Nat.zero_lt_succ 127)
        rw [hcomp, consNonempty, if_neg hne]
        refine iff_of_false ?_ fun hfit => hlong (lookedUpFit_cons.mp hfit).1
        rintro ⟨r, hr⟩
        cases hr
  | case3 current s c cs rest h _ ih =>
      have hcomp : components slash (c :: cs) = components slash (skipSlash rest) :=
        (components_readToken h).trans (if_pos rfl)
      rw [hcomp, ih]
  | case4 current s c cs token rest h _ hne s' hfind =>
      have hcomp : components slash (c :: cs) = token :: components slash (skipSlash rest) :=
        (components_readToken h).trans (if_neg hne)
      rw [hcomp, lookedUpFit_missing hfind]
      exact iff_of_true ⟨_, rfl⟩ (readToken_short h)
  | case5 current s c cs token rest h _ hne n s' hfind ih =>
      have hcomp : components slash (c :: cs) = token :: components slash (skipSlash rest) :=
        (components_readToken h).trans (if_neg hne)
      rw [hcomp, lookedUpFit_found hfind, ih, and_iff_right (readToken_short h)]

/-- The names `vfs_resolve_path` looks up for a path fit into `token`. -/
def PathFits (D : Driver N σ) (v : Vfs N) (path : List StrChar) (s : σ) : Prop :=
  path.head? = some slash → ∀ r, v.rootNode = some r →
    LookedUpFit D r (components slash path) s

/-- `vfs_resolve_path` looks at a path only if it is absolute and there is a root. -/
theorem resolvePath_cases (D : Driver N σ) (v : Vfs N) (path : List StrChar) (s : σ) :
    (resolvePathStores D v path s = [] ∧ vfsResolvePath D v (some path) s = .ok (none, s) ∧
        PathFits D v path s) ∨
      ∃ r cs, path = slash :: cs ∧ resolvePathStores D v path s = resolveStores D r cs s ∧
        vfsResolvePath D v (some path) s = resolveLoop D r cs s ∧
        (PathFits D v path s ↔ LookedUpFit D r (components slash cs) s) := by
  cases path with
  | nil => exact .inl ⟨rfl, rfl, fun h => by cases h⟩
  | cons c cs =>
      by_cases hc : c = slash
      · subst hc
        cases hroot : v.rootNode with
        | none =>
            refine .inl ⟨?_, ?_, fun _ r hr => ?_⟩
            · rw [resolvePathStores, hroot]
              rfl
            · rw [vfsResolvePath, hroot]
              rfl
            · rw [hroot] at hr
              cases hr
        | some r =>
            refine .inr ⟨r, cs, rfl, ?_, ?_, ?_⟩
            · rw [resolvePathStores, hroot, if_neg (not_not_intro rfl)]
              cases cs <;> simp [resolveStores]
            · rw [vfsResolvePath, hroot, if_neg (not_not_intro rfl)]
              cases cs <;> simp [resolveLoop]
            · rw [PathFits, hroot, components_sep]
              constructor
              · exact fun h => h rfl r rfl
              · rintro h - r' ⟨⟩
                exact h
      · refine .inl ⟨?_, ?_, fun h => absurd (Option.some.inj h) hc⟩
        · rw [resolvePathStores, if_pos hc]
        · rw [vfsResolvePath, if_pos hc]

/-- **`vfs_resolve_path` stays inside `token`**, exactly if the names it looks up fit. -/
theorem resolvePathStores_iff {v : Vfs N} {path : List StrChar} {s : σ} :
    (∀ i ∈ resolvePathStores D v path s, i < pathSize) ↔ PathFits D v path s := by
  rcases resolvePath_cases D v path s with ⟨hstores, -, hfits⟩ | ⟨r, cs, -, hstores, -, hfits⟩
  · rw [hstores]
    exact iff_of_true (by simp) hfits
  · rw [hstores, hfits, resolveStores_iff]

/-- With the bound it returns, exactly if the names it looks up fit. -/
theorem vfsResolvePath_ok_iff {v : Vfs N} {path : List StrChar} {s : σ} :
    (∃ r, vfsResolvePath D v (some path) s = .ok r) ↔ PathFits D v path s := by
  rcases resolvePath_cases D v path s with ⟨-, hret, hfits⟩ | ⟨r, cs, -, -, hret, hfits⟩
  · exact iff_of_true ⟨_, hret⟩ hfits
  · rw [hret, hfits, resolveLoop_ok_iff]

/-- A walk that has found nothing finds nothing further on. -/
theorem walkPath_append_none {cs : List (List StrChar)} {r : N} {s : σ}
    (h : (walkPath D r cs s).1 = none) (ds : List (List StrChar)) :
    (walkPath D r (cs ++ ds) s).1 = none := by
  induction cs generalizing r s with
  | nil => cases h
  | cons c cs ih =>
      rw [walkPath] at h
      rw [List.cons_append, walkPath]
      split at h
      · exact h
      · exact ih h

/-- A path with a component that is too long is not found, if the names looked up fit. -/
theorem vfsResolvePath_long {v : Vfs N} {path : List StrChar} {s : σ}
    (hfits : PathFits D v path s) (hlong : ¬ Fits path) :
    ∃ s', vfsResolvePath D v (some path) s = .ok (none, s') := by
  rcases resolvePath_cases D v path s with ⟨-, hret, -⟩ | ⟨r, cs, rfl, -, hret, hiff⟩
  · exact ⟨s, hret⟩
  · have hlooked := hiff.mp hfits
    obtain ⟨⟨n, s'⟩, hloop⟩ := resolveLoop_ok_iff.mpr hlooked
    have hwalk := resolveLoop_ok hloop
    rw [Fits, components_sep] at hlong
    obtain ⟨c, hlong⟩ := not_forall.mp hlong
    obtain ⟨hc, hlen⟩ := Classical.not_imp.mp hlong
    obtain ⟨before, after, hsplit⟩ := List.append_of_mem hc
    have hmissing : (walkPath D r before s).1 = none := by
      by_contra hfound
      exact absurd (hlooked before c after hsplit hfound) hlen
    have hnone := walkPath_append_none hmissing (c :: after)
    rw [← hsplit, hwalk] at hnone
    obtain rfl : n = none := hnone
    exact ⟨s', hret.trans hloop⟩

/-! ### The mount table -/

/-- The indices `vfs_mount` stores at in the `path` of a mount point. -/
def mountStores (v : Vfs N) (path : List StrChar) : List ℕ :=
  if stringCompare path [slash] = 0 then copyStores 0 [slash]
  else if v.mounts.length < maxMounts then copyStores 0 path
  else []

/-- The indices `vfs_umount` stores at in the `path` of a mount point: it moves those behind the one
it removes. -/
def umountStores (path : List StrChar) : List (MountPoint N) → List ℕ
  | [] => []
  | m :: ms =>
      if stringCompare m.path path = 0 then ms.flatMap fun m => copyStores 0 m.path
      else umountStores path ms

/-- The paths of the mount points fit into their arrays. -/
def PathsFit (v : Vfs N) : Prop := ∀ m ∈ v.mounts, m.path.length < pathSize

theorem VfsEffect.pathsFit {v v' : Vfs N} {call : VfsCall N} (h : VfsEffect v call v')
    (hv : PathsFit v) : PathsFit v' := by
  cases h with
  | mountRoot v node =>
      intro m hm
      rcases List.mem_cons.mp hm with rfl | hm
      · exact (by decide : 1 < pathSize)
      · exact hv m (List.mem_of_mem_tail hm)
  | mount node hpath hlen hroom =>
      intro m hm
      rcases List.mem_append.mp hm with hm | hm
      · exact hv m hm
      · obtain rfl := List.mem_singleton.mp hm
        exact hlen
  | mountFull => exact hv
  | umount hm hbefore =>
      intro m hm
      refine hv m ?_
      rcases List.mem_append.mp hm with hm | hm
      · exact List.mem_append_left _ hm
      · exact List.mem_append_right _ (List.mem_cons_of_mem _ hm)
  | umountMissing => exact hv

/-- The paths fit in every state reached by calls that return. -/
theorem pathsFit_run {calls : List (VfsCall N)} {v : Vfs N} (h : Run VfsStep vfsInit calls v) :
    PathsFit v :=
  h.inv (P := fun _ => True) (fun _ hv hstep => hstep.effect.pathsFit hv) (fun _ _ => trivial)
    fun _ hm => by cases hm

/-- **A mount stays inside the `path` of its mount point**, exactly if its path fits or there is no
room for it. -/
theorem mountStores_iff {v : Vfs N} {path : List StrChar} :
    (∀ i ∈ mountStores v path, i < pathSize) ↔
      path.length < pathSize ∨ maxMounts ≤ v.mounts.length := by
  rw [mountStores]
  split
  · rename_i hroot
    obtain rfl := stringCompare_eq_zero.mp hroot
    exact iff_of_true (by decide) (.inl (by decide))
  · rw [copyStores_eq]
    split
    · rename_i hroom
      rw [range'_lt_iff]
      exact (or_iff_left (Nat.not_le.mpr hroom)).symm
    · rename_i hfull
      exact iff_of_true (by simp) (.inr (Nat.not_lt.mp hfull))

/-- **An unmount stays inside**, where the paths of the mount points fit. -/
theorem umountStores_lt {path : List StrChar} {ms : List (MountPoint N)}
    (hms : ∀ m ∈ ms, m.path.length < pathSize) : ∀ i ∈ umountStores path ms, i < pathSize := by
  induction ms with
  | nil => exact fun i hi => by cases hi
  | cons m ms ih =>
      have hrest : ∀ m ∈ ms, m.path.length < pathSize :=
        fun m hm => hms m (List.mem_cons_of_mem _ hm)
      rw [umountStores]
      split
      · intro i hi
        obtain ⟨m', hm', hi'⟩ := List.mem_flatMap.mp hi
        rw [copyStores_eq] at hi'
        exact range'_lt_iff.mpr (hrest m' hm') i hi'
      · exact ih hrest

end ZeptoOS.Fs
