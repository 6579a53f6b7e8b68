import ZeptoOS.Fs.Resolve

/-!
# Fs — MountTable

The mount table over whole runs of `vfs_init`, `vfs_mount` and `vfs_umount`.

`vfs_mount` at `/` writes slot 0 whatever stands there, so the calls touch only the mount points of
their own path exactly in the runs in which it finds that slot its own
(`own_path_iff_root_slot`).  `vfs_umount` never writes `root_node`, so `vfs_root` is the node of the
mount point at `/` exactly in the runs in which that one is not unmounted
(`root_consistent_iff_kept`).
-/

namespace ZeptoOS.Fs
open Lib

variable {N σ : Type*}

/-! ### What one call does -/

/-- The effect of a call, case by case. -/
inductive VfsEffect : Vfs N → VfsCall N → Vfs N → Prop where
  | mountRoot (v : Vfs N) (node : Option N) :
      VfsEffect v (.mount [slash] node 0) ⟨node, ⟨[slash], node⟩ :: v.mounts.tail⟩
  | mount {v : Vfs N} {path : List StrChar} (node : Option N) (hpath : path ≠ [slash])
      (hlen : path.length < pathSize) (hroom : v.mounts.length < maxMounts) :
      VfsEffect v (.mount path node 0) ⟨v.rootNode, v.mounts ++ [⟨path, node⟩]⟩
  | mountFull {v : Vfs N} {path : List StrChar} (node : Option N) (hpath : path ≠ [slash])
      (hfull : maxMounts ≤ v.mounts.length) : VfsEffect v (.mount path node (-1)) v
  | umount {root : Option N} {path : List StrChar} {before after : List (MountPoint N)}
      {m : MountPoint N} (hm : m.path = path) (hbefore : ∀ m ∈ before, m.path ≠ path) :
      VfsEffect ⟨root, before ++ m :: after⟩ (.umount path 0) ⟨root, before ++ after⟩
  | umountMissing {v : Vfs N} {path : List StrChar} (hnone : ∀ m ∈ v.mounts, m.path ≠ path) :
      VfsEffect v (.umount path (-1)) v

theorem removeMount_some {path : List StrChar} {ms ms' : List (MountPoint N)}
    (h : removeMount path ms = some ms') :
    ∃ before m after, ms = before ++ m :: after ∧ ms' = before ++ after ∧ m.path = path ∧
      ∀ m ∈ before, m.path ≠ path := by
  induction ms generalizing ms' with
  | nil => cases h
  | cons m ms ih =>
      rw [removeMount] at h
      split at h
      · rename_i hm
        obtain rfl := Option.some.inj h
        exact ⟨[], m, ms, rfl, rfl, stringCompare_eq_zero.mp hm, fun _ hm => by cases hm⟩
      · rename_i hm
        obtain ⟨rest, hrest, rfl⟩ := Option.map_eq_some_iff.mp h
        obtain ⟨before, m', after, rfl, rfl, hm', hbefore⟩ := ih hrest
        refine ⟨m :: before, m', after, rfl, rfl, hm', fun x hx => ?_⟩
        rcases List.mem_cons.mp hx with rfl | hx
        · exact fun e => hm (stringCompare_eq_zero.mpr e)
        · exact hbefore x hx

theorem removeMount_none {path : List StrChar} {ms : List (MountPoint N)}
    (h : removeMount path ms = none) : ∀ m ∈ ms, m.path ≠ path := by
  induction ms with
  | nil => exact fun _ hm => by cases hm
  | cons m ms ih =>
      rw [removeMount] at h
      split at h
      · cases h
      · rename_i hm
        intro x hx
        rcases List.mem_cons.mp hx with rfl | hx
        · exact fun e => hm (stringCompare_eq_zero.mpr e)
        · exact ih (Option.map_eq_none_iff.mp h) x hx

theorem VfsStep.effect {v v' : Vfs N} {call : VfsCall N} (h : VfsStep v call v') :
    VfsEffect v call v' := by
  cases call with
  | mount path node ret =>
      rw [VfsStep, vfsMount] at h
      split at h
      · rename_i hpath
        obtain rfl := stringCompare_eq_zero.mp hpath
        cases h
        exact .mountRoot v node
      · rename_i hpath
        have hpath : path ≠ [slash] := fun e => hpath (stringCompare_eq_zero.mpr e)
        split at h
        · rename_i hroom
          split at h
          · rename_i hlen
            cases h
            exact .mount node hpath hlen hroom
          · cases h
        · rename_i hfull
          cases h
          exact .mountFull node hpath (Nat.le_of_not_lt hfull)
  | umount path ret =>
      rw [VfsStep, vfsUmount] at h
      split at h
      · rename_i hms
        obtain ⟨before, m, after, hv, rfl, hm, hbefore⟩ := removeMount_some hms
        cases h
        obtain ⟨root, ms⟩ := v
        dsimp only at hv
        subst hv
        exact .umount hm hbefore
      · rename_i hms
        cases h
        exact .umountMissing (removeMount_none hms)

/-- The table never outgrows its array. -/
theorem VfsEffect.length_le {v v' : Vfs N} {call : VfsCall N} (h : VfsEffect v call v')
    (hv : v.mounts.length ≤ maxMounts) : v'.mounts.length ≤ maxMounts := by
  cases h with
  | mountRoot v node =>
      have hmax : 1 ≤ maxMounts := by decide
      rw [List.length_cons, List.length_tail]
      omega
  | mount node hpath hlen hroom => rwa [List.length_append, List.length_singleton]
  | mountFull => exact hv
  | umount hm hbefore =>
      rw [List.length_append, List.length_cons] at hv
      rw [List.length_append]
      omega
  | umountMissing => exact hv

/-! ### Calls touch only their own path -/

/-- A call on the mount table, or `vfs_init` again. -/
inductive VfsOp (N : Type*) where
  | init
  | call (call : VfsCall N)

def VfsOpStep (v : Vfs N) (op : VfsOp N) (v' : Vfs N) : Prop :=
  match op with
  | .init => v' = vfsInit
  | .call call => VfsStep v call v'

/-- The mount points at other paths than `path`, in order. -/
def others (path : List StrChar) (ms : List (MountPoint N)) : List (MountPoint N) :=
  ms.filter fun m => m.path ≠ path

/-- A call at `path` that returned `ret` kept the mount points at other paths if it succeeded, and
everything if it failed. -/
structure KeepsOthers (path : List StrChar) (ret : ℤ) (v v' : Vfs N) : Prop where
  others : ret = 0 → (others path v.mounts).Sublist v'.mounts
  failed : ret = -1 → v' = v

/-- `ms'` is `ms` without one mount point at `path`. -/
def RemovesOne (path : List StrChar) (ms ms' : List (MountPoint N)) : Prop :=
  ∃ before m after, m.path = path ∧ ms = before ++ m :: after ∧ ms' = before ++ after

/-- A call touches only the mount points of its own path: a mount adds its own, an unmount removes
one of them. -/
def TouchesOwnPath (v : Vfs N) (call : VfsCall N) (v' : Vfs N) : Prop :=
  match call with
  | .mount path node ret => KeepsOthers path ret v v' ∧ (ret = 0 → ⟨path, node⟩ ∈ v'.mounts)
  | .umount path ret => KeepsOthers path ret v v' ∧ (ret = 0 → RemovesOne path v.mounts v'.mounts)

/-- What each operation does to the table. -/
def OwnPathOnly (v : Vfs N) (op : VfsOp N) (v' : Vfs N) : Prop :=
  v'.mounts.length ≤ maxMounts ∧ ∀ call, op = .call call → TouchesOwnPath v call v'

/-- If the operation is a mount at `/`, it finds slot 0 empty or its own. -/
def RootSlotOwn (v : Vfs N) (op : VfsOp N) (_ : Vfs N) : Prop :=
  ∀ node ret, op = .call (.mount [slash] node ret) →
    ∀ m, v.mounts.head? = some m → m.path = [slash]

theorem others_sublist (path : List StrChar) (ms : List (MountPoint N)) :
    (others path ms).Sublist ms :=
  List.filter_sublist

theorem others_cons_own {path : List StrChar} {m : MountPoint N} (hm : m.path = path)
    (ms : List (MountPoint N)) : others path (m :: ms) = others path ms :=
  List.filter_cons_of_neg (by simpa using hm)

theorem others_idem (path : List StrChar) (ms : List (MountPoint N)) :
    others path (others path ms) = others path ms := by
  rw [others, others, List.filter_filter]
  simp

/-- A mount at `/` keeps the mount points at other paths exactly if slot 0 is empty or its own. -/
theorem others_mountRoot {ms : List (MountPoint N)} {node : Option N} :
    (others [slash] ms).Sublist (⟨[slash], node⟩ :: ms.tail) ↔
      ∀ m, ms.head? = some m → m.path = [slash] := by
  cases ms with
  | nil => exact iff_of_true (List.nil_sublist _) fun m h => by cases h
  | cons m ms =>
      constructor
      · intro hsub x hx
        obtain rfl := Option.some.inj hx
        by_contra hm
        -- slot 0 is lost to `/`, so there is one mount point fewer at another path
        have hcons : others [slash] (m :: ms) = m :: others [slash] ms :=
          List.filter_cons_of_pos (by simpa using hm)
        have hown : others [slash] (⟨[slash], node⟩ :: ms) = others [slash] ms :=
          others_cons_own (by rfl) ms
        have hfilter : (others [slash] (others [slash] (m :: ms))).Sublist
            (others [slash] (⟨[slash], node⟩ :: ms)) := hsub.filter _
        rw [others_idem, hcons, hown] at hfilter
        have hle := hfilter.length_le
        rw [List.length_cons] at hle
        omega
      · intro hm
        rw [others_cons_own (hm m rfl)]
        exact (others_sublist _ ms).cons _

theorem touchesOwnPath_iff {v v' : Vfs N} {call : VfsCall N} (h : VfsEffect v call v') :
    TouchesOwnPath v call v' ↔ RootSlotOwn v (.call call) v' := by
  cases h with
  | mountRoot v node =>
      constructor
      · intro hP node' ret' _
        exact others_mountRoot.mp (hP.1.others rfl)
      · intro hQ
        exact ⟨⟨fun _ => others_mountRoot.mpr (hQ node 0 rfl), fun h => (by cases h)⟩,
          fun _ => List.mem_cons_self⟩
  | mount node hpath hlen hroom =>
      refine iff_of_true ⟨⟨fun _ => ?_, fun h => (by cases h)⟩, fun _ => ?_⟩ ?_
      · exact (others_sublist _ _).trans (List.sublist_append_left _ _)
      · exact List.mem_append_right _ List.mem_cons_self
      · intro node' ret' e
        cases e
        exact absurd rfl hpath
  | mountFull node hpath hfull =>
      refine iff_of_true ⟨⟨fun h => (by cases h), fun _ => rfl⟩, fun h => (by cases h)⟩ ?_
      intro node' ret' e
      cases e
      exact absurd rfl hpath
  | @umount root path before after m hm hbefore =>
      refine iff_of_true ⟨⟨fun _ => ?_, fun h => (by cases h)⟩,
        fun _ => ⟨before, m, after, hm, rfl, rfl⟩⟩ fun _ _ e => by cases e
      have hsplit : others path (before ++ m :: after) =
          others path before ++ others path after := by
        rw [others, List.filter_append]
        exact congrArg _ (others_cons_own hm after)
      rw [hsplit]
      exact (others_sublist _ _).append (others_sublist _ _)
  | umountMissing hnone =>
      exact iff_of_true ⟨⟨fun h => (by cases h), fun _ => rfl⟩, fun h => (by cases h)⟩
        fun _ _ e => by cases e

/-- **Mount operations and the slots of others.**  Along a run of `vfs_init`, `vfs_mount` and
`vfs_umount` every call touches only the mount points of its own path, and the count stays within
the array, exactly if every mount at `/` finds slot 0 empty or its own. -/
theorem own_path_iff_root_slot (ops : List (VfsOp N)) :
    Along VfsOpStep OwnPathOnly vfsInit ops ↔ Along VfsOpStep RootSlotOwn vfsInit ops := by
  refine Along.iff_of_inv (I := fun v : Vfs N => v.mounts.length ≤ maxMounts) ?_ (Nat.zero_le _)
  intro v op v' hv h
  cases op with
  | init =>
      obtain rfl : v' = vfsInit := h
      exact ⟨iff_of_true ⟨Nat.zero_le _, fun _ e => (by cases e)⟩ fun _ _ e => (by cases e),
        fun _ => Nat.zero_le _⟩
  | call call =>
      have heff : VfsEffect v call v' := VfsStep.effect h
      refine ⟨?_, fun _ => heff.length_le hv⟩
      rw [← touchesOwnPath_iff heff]
      constructor
      · exact fun hP => hP.2 call rfl
      · intro hP
        refine ⟨heff.length_le hv, fun call' e => ?_⟩
        cases e
        exact hP

/-- The mount at `/` takes the slot of the one at `/a`, which is then not in the table. -/
theorem root_mount_drops_other :
    ¬ ∀ ops : List (VfsOp ℕ), Along VfsOpStep OwnPathOnly vfsInit ops := by
  intro hall
  let a : List StrChar := [slash, ⟨0x61, by decide⟩]
  have h := hall [.call (.mount a (some 1) 0), .call (.mount [slash] (some 0) 0)]
  have hown := ((h ⟨none, [⟨a, some 1⟩]⟩ rfl).2 ⟨some 0, [⟨[slash], some 0⟩]⟩ rfl).1.2 _ rfl
  have hmem : (⟨a, some 1⟩ : MountPoint ℕ) ∈ [(⟨[slash], some 0⟩ : MountPoint ℕ)] :=
    (hown.1.others rfl).subset List.mem_cons_self
  have ha : a = [slash] := congrArg MountPoint.path (List.mem_singleton.mp hmem)
  exact absurd ha (by decide)

/-! ### The root node -/

/-- `vfs_root` is the node of the mount point at `/`, and `NULL` if there is none. -/
structure RootConsistent (v : Vfs N) : Prop where
  mounted : ∀ m ∈ v.mounts, m.path = [slash] → v.rootNode = m.node
  unmounted : (∀ m ∈ v.mounts, m.path ≠ [slash]) → v.rootNode = none

/-- Every path resolves to `NULL`. -/
def NothingResolves (D : Driver N σ) (v : Vfs N) : Prop :=
  ∀ path s, vfsResolvePath D v path s = .ok (none, s)

/-- After a call the root is consistent, and after one that unmounts the only mount point at `/`
nothing resolves. -/
def RootFollows (D : Driver N σ) (_ : Vfs N) (call : VfsCall N) (v' : Vfs N) : Prop :=
  RootConsistent v' ∧
    (call = .umount [slash] 0 → (∀ m ∈ v'.mounts, m.path ≠ [slash]) → NothingResolves D v')

/-- The call does not unmount a node from `/`. -/
def RootKept (v : Vfs N) (call : VfsCall N) (_ : Vfs N) : Prop :=
  ∀ ret, call = .umount [slash] ret → ∀ m ∈ v.mounts, m.path = [slash] → m.node = none

/-- The root is consistent, and only slot 0 is ever mounted at `/`. -/
structure RootInv (v : Vfs N) : Prop extends RootConsistent v where
  first : ∀ m ∈ v.mounts.tail, m.path ≠ [slash]

theorem rootInv_init : RootInv (vfsInit : Vfs N) where
  mounted := fun _ hm => by cases hm
  unmounted := fun _ => rfl
  first := fun _ hm => by cases hm

theorem nothingResolves_of_root {D : Driver N σ} {v : Vfs N} (h : v.rootNode = none) :
    NothingResolves D v := by
  intro path s
  match path with
  | none | some [] => rfl
  | some (c :: cs) =>
      rw [vfsResolvePath, h]
      split <;> rfl

/-- Mounting at another path changes neither the root nor the mount points at `/`. -/
theorem RootInv.mount {v : Vfs N} (hv : RootInv v) {path : List StrChar} (node : Option N)
    (hpath : path ≠ [slash]) : RootInv ⟨v.rootNode, v.mounts ++ [⟨path, node⟩]⟩ where
  mounted := by
    intro m hm hroot
    rcases List.mem_append.mp hm with hm | hm
    · exact hv.mounted m hm hroot
    · obtain rfl := List.mem_singleton.mp hm
      exact absurd hroot hpath
  unmounted := fun h => hv.unmounted fun m hm => h m (List.mem_append_left _ hm)
  first := by
    intro m hm
    cases hms : v.mounts with
    | nil => rw [hms] at hm; cases hm
    | cons m₀ ms =>
        have hfirst := hv.first
        rw [hms, List.tail_cons] at hfirst
        rw [hms, List.cons_append, List.tail_cons] at hm
        rcases List.mem_append.mp hm with hm | hm
        · exact hfirst m hm
        · obtain rfl := List.mem_singleton.mp hm
          exact hpath

/-- Unmounting from another path changes neither the root nor the mount points at `/`. -/
theorem RootInv.umount {root : Option N} {before after : List (MountPoint N)} {m : MountPoint N}
    (hv : RootInv ⟨root, before ++ m :: after⟩) (hm : m.path ≠ [slash]) :
    RootInv ⟨root, before ++ after⟩ where
  mounted := by
    intro x hx hroot
    refine hv.mounted x ?_ hroot
    rcases List.mem_append.mp hx with hx | hx
    · exact List.mem_append_left _ hx
    · exact List.mem_append_right _ (List.mem_cons_of_mem _ hx)
  unmounted := by
    intro h
    refine hv.unmounted fun x hx => ?_
    rcases List.mem_append.mp hx with hx | hx
    · exact h x (List.mem_append_left _ hx)
    · rcases List.mem_cons.mp hx with rfl | hx
      · exact hm
      · exact h x (List.mem_append_right _ hx)
  first := by
    have hfirst := hv.first
    cases before with
    | nil => exact fun x hx => hfirst x (List.mem_of_mem_tail hx)
    | cons m₀ before =>
        intro x hx
        refine hfirst x ?_
        rcases List.mem_append.mp hx with hx | hx
        · exact List.mem_append_left _ hx
        · exact List.mem_append_right _ (List.mem_cons_of_mem _ hx)

/-- The mount point at `/` stands first, so none is left once it is unmounted. -/
theorem RootInv.umountRoot {root : Option N} {before after : List (MountPoint N)}
    {m : MountPoint N} (hv : RootInv ⟨root, before ++ m :: after⟩) (hm : m.path = [slash]) :
    before = [] ∧ ∀ x ∈ after, x.path ≠ [slash] := by
  have hfirst := hv.first
  cases before with
  | nil => exact ⟨rfl, hfirst⟩
  | cons m₀ before =>
      exact absurd hm (hfirst m (List.mem_append_right _ List.mem_cons_self))

/-- The mount of a root takes the place of the first mount point. -/
theorem RootInv.mountRoot {v : Vfs N} (hv : RootInv v) (node : Option N) :
    RootInv ⟨node, ⟨[slash], node⟩ :: v.mounts.tail⟩ := by
  refine ⟨⟨?_, ?_⟩, hv.first⟩
  · intro m hm hroot
    rcases List.mem_cons.mp hm with rfl | hm
    · rfl
    · exact absurd hroot (hv.first m hm)
  · intro hnone
    exact absurd rfl (hnone _ List.mem_cons_self)

theorem rootFollows_iff {D : Driver N σ} {v v' : Vfs N} {call : VfsCall N} (hv : RootInv v)
    (h : VfsEffect v call v') :
    (RootFollows D v call v' ↔ RootKept v call v') ∧ (RootKept v call v' → RootInv v') := by
  cases h with
  | mountRoot v node =>
      have hinv := hv.mountRoot node
      exact ⟨iff_of_true ⟨hinv.toRootConsistent, fun e => (by cases e)⟩ fun _ e => (by cases e),
        fun _ => hinv⟩
  | mount node hpath hlen hroom =>
      have hinv := hv.mount node hpath
      exact ⟨iff_of_true ⟨hinv.toRootConsistent, fun e => (by cases e)⟩ fun _ e => (by cases e),
        fun _ => hinv⟩
  | mountFull =>
      exact ⟨iff_of_true ⟨hv.toRootConsistent, fun e => (by cases e)⟩ fun _ e => (by cases e),
        fun _ => hv⟩
  | umountMissing hnone =>
      refine ⟨iff_of_true ⟨hv.toRootConsistent, fun e => (by cases e)⟩ fun ret e m hm hroot => ?_,
        fun _ => hv⟩
      cases e
      exact absurd hroot (hnone m hm)
  | @umount root path before after m hm hbefore =>
      by_cases hpath : path = [slash]
      · subst hpath
        -- nothing is left at `/`, so the root must have been `NULL` before
        obtain ⟨rfl, hafter⟩ := hv.umountRoot hm
        have hroot : root = m.node := hv.mounted m List.mem_cons_self hm
        have hinv : root = none → RootInv ⟨root, [] ++ after⟩ := fun hnone =>
          ⟨⟨fun x hx hx' => absurd hx' (hafter x hx), fun _ => hnone⟩,
            fun x hx => hafter x (List.mem_of_mem_tail hx)⟩
        have hkept : RootKept ⟨root, [] ++ m :: after⟩ (.umount [slash] 0) ⟨root, [] ++ after⟩ ↔
            root = none := by
          constructor
          · exact fun h => hroot.trans (h 0 rfl m List.mem_cons_self hm)
          · intro hnone ret _ x hx hx'
            exact (hv.mounted x hx hx').symm.trans hnone
        refine ⟨?_, fun h => hinv (hkept.mp h)⟩
        rw [hkept]
        constructor
        · exact fun h => h.1.unmounted hafter
        · exact fun hnone => ⟨(hinv hnone).toRootConsistent,
            fun _ _ => nothingResolves_of_root hnone⟩
      · have hinv := hv.umount (fun e => hpath (hm.symm.trans e))
        exact ⟨iff_of_true ⟨hinv.toRootConsistent, fun e => absurd (by cases e; rfl) hpath⟩
          fun _ e => absurd (by cases e; rfl) hpath, fun _ => hinv⟩

/-- **Root consistency.**  Along a run of mounts and unmounts from `vfs_init`, `vfs_root` is the
node of the mount point at `/`, or `NULL` if there is none, and nothing resolves once that mount
point is gone, exactly if no call unmounts a node from `/`. -/
theorem root_consistent_iff_kept (D : Driver N σ) (calls : List (VfsCall N)) :
    Along VfsStep (RootFollows D) vfsInit calls ↔ Along VfsStep RootKept vfsInit calls := by
  refine Along.iff_of_inv (I := RootInv) ?_ rootInv_init
  intro v call v' hv h
  exact rootFollows_iff hv h.effect

/-- The root mounted at `/` is still `vfs_root` once it is unmounted, and `/` resolves to it. -/
theorem umount_keeps_root :
    ¬ ∀ (D : Driver ℕ Unit) (calls : List (VfsCall ℕ)),
      Along VfsStep (RootFollows D) vfsInit calls := by
  intro hall
  have h := hall ⟨fun _ _ => 2, fun _ _ => none⟩ [.mount [slash] (some 0) 0, .umount [slash] 0]
  have hroot := ((h ⟨some 0, [⟨[slash], some 0⟩]⟩ rfl).2 ⟨some 0, []⟩ rfl).1.1.unmounted
  cases hroot fun m hm => by cases hm

end ZeptoOS.Fs
