import ZeptoOS.Fs.PathStores
import ZeptoOS.Syscall.Handler

/-!
# Syscall — PathBuffers

The paths the user passes to the system calls, and the arrays of 128 characters the kernel copies
them into.  No length is looked at: a call stays inside the arrays exactly if the names it looks up
and the path it keeps fit (`keeps_buffers_iff`).
-/

namespace ZeptoOS.Syscall
open Lib Fs

/-- A system call with its paths. -/
inductive PathCall where
  | sysOpen (path : List StrChar)
  | sysLink (oldpath newpath : List StrChar)
  | sysUnlink (pathname : List StrChar)
  | sysMount (dir : List StrChar)
  | sysUmount (special : List StrChar)

variable {N σ : Type*} (K : Kernel N σ) (v : Vfs N) (s : σ)

namespace PathCall

/-- What a call returns, and the state of `vfs.c` after. -/
def run : PathCall → Except Fault (ℤ × Vfs N)
  | .sysOpen path => (Syscall.sysOpen K v (some path) s).map fun r => (r.1, v)
  | .sysLink oldpath newpath => (Syscall.sysLink K v (some oldpath) newpath s).map fun r => (r.1, v)
  | .sysUnlink pathname => (Syscall.sysUnlink K v (some pathname) s).map fun r => (r.1, v)
  | .sysMount dir => Syscall.sysMount v dir none
  | .sysUmount special => .ok (Syscall.sysUmount v special)

/-- The indices a call stores at in `token`. -/
def tokenStores : PathCall → List ℕ
  | .sysOpen path | .sysLink path _ | .sysUnlink path => resolvePathStores K.toDriver v path s
  | .sysMount _ | .sysUmount _ => []

/-- The indices a call stores at in the `path` of a mount point. -/
def pathStores : PathCall → List ℕ
  | .sysOpen _ | .sysLink _ _ | .sysUnlink _ => []
  | .sysMount dir => mountStores v dir
  | .sysUmount special => umountStores special v.mounts

/-- A path is too long to be held: in `token` one of its components, in a mount point the whole. -/
def TooLong : PathCall → Prop
  | .sysOpen path | .sysLink path _ | .sysUnlink path => ¬ Fits path
  | .sysMount path | .sysUmount path => pathSize ≤ path.length

/-- What a call looks up or keeps fits. -/
def KeptFit : PathCall → Prop
  | .sysOpen path | .sysLink path _ | .sysUnlink path => PathFits K.toDriver v path s
  | .sysMount dir => dir.length < pathSize ∨ maxMounts ≤ v.mounts.length
  | .sysUmount _ => True

/-- A call stores inside the arrays, and one with a path that is too long fails and leaves the mount
table as it is. -/
structure KeepsBuffers (call : PathCall) : Prop where
  token : ∀ i ∈ call.tokenStores K v s, i < pathSize
  path : ∀ i ∈ call.pathStores v, i < pathSize
  fails : call.TooLong → call.run K v s = .ok (-1, v)

variable {K v s}

/-- Where the names looked up fit, a path that is too long is not found, and the call fails. -/
theorem run_tooLong {call : PathCall} (hv : PathsFit v) (hfit : call.KeptFit K v s)
    (hlong : call.TooLong) : call.run K v s = .ok (-1, v) := by
  cases call with
  | sysOpen path =>
      obtain ⟨s', hnone⟩ := vfsResolvePath_long hfit hlong
      rw [run, Syscall.sysOpen, hnone]
      rfl
  | sysLink oldpath newpath =>
      obtain ⟨s', hnone⟩ := vfsResolvePath_long hfit hlong
      rw [run, Syscall.sysLink, vfsLink, hnone]
      rfl
  | sysUnlink pathname =>
      obtain ⟨s', hnone⟩ := vfsResolvePath_long hfit hlong
      rw [run, Syscall.sysUnlink, vfsUnlink, hnone]
      rfl
  | sysMount dir =>
      have hfull : maxMounts ≤ v.mounts.length := hfit.resolve_left (Nat.not_lt.mpr hlong)
      have hne : stringCompare dir [slash] ≠ 0 := by
        intro h
        obtain rfl := stringCompare_eq_zero.mp h
        have hlen : pathSize ≤ [slash].length := hlong
        exact absurd hlen (by decide)
      rw [run, Syscall.sysMount, vfsMount, if_neg hne, if_neg (Nat.not_lt.mpr hfull)]
  | sysUmount special =>
      have hmissing : removeMount special v.mounts = none := by
        refine Option.eq_none_iff_forall_ne_some.mpr fun ms hms => ?_
        obtain ⟨before, m, after, hsplit, -, hm, -⟩ := removeMount_some hms
        have hlt : m.path.length < pathSize := hv m (by rw [hsplit]; simp)
        rw [hm] at hlt
        exact absurd hlong (Nat.not_le.mpr hlt)
      rw [run, Syscall.sysUmount, vfsUmount, hmissing]

theorem inside_iff {call : PathCall} (hv : PathsFit v) :
    ((∀ i ∈ call.tokenStores K v s, i < pathSize) ∧ ∀ i ∈ call.pathStores v, i < pathSize) ↔
      call.KeptFit K v s := by
  have hnone : ∀ i ∈ ([] : List ℕ), i < pathSize := fun i hi => by cases hi
  cases call with
  | sysOpen path => exact (and_iff_left hnone).trans resolvePathStores_iff
  | sysLink path _ => exact (and_iff_left hnone).trans resolvePathStores_iff
  | sysUnlink path => exact (and_iff_left hnone).trans resolvePathStores_iff
  | sysMount dir => exact (and_iff_right hnone).trans mountStores_iff
  | sysUmount special => exact iff_of_true ⟨hnone, umountStores_lt hv⟩ trivial

/-- The call returns, with no store outside an array, exactly if it stores inside them. -/
theorem run_ok_iff {call : PathCall} : (∃ r, call.run K v s = .ok r) ↔ call.KeptFit K v s := by
  cases call with
  | sysOpen path =>
      rw [KeptFit, ← vfsResolvePath_ok_iff, run, Syscall.sysOpen]
      rcases vfsResolvePath K.toDriver v (some path) s with e | ⟨n, s'⟩
      · exact iff_of_false (by rintro ⟨r, ⟨⟩⟩) (by rintro ⟨r, ⟨⟩⟩)
      · cases n <;> exact iff_of_true ⟨_, rfl⟩ ⟨_, rfl⟩
  | sysLink oldpath newpath =>
      rw [KeptFit, ← vfsResolvePath_ok_iff, run, Syscall.sysLink, vfsLink]
      rcases vfsResolvePath K.toDriver v (some oldpath) s with e | ⟨n, s'⟩
      · exact iff_of_false (by rintro ⟨r, ⟨⟩⟩) (by rintro ⟨r, ⟨⟩⟩)
      · refine iff_of_true ?_ ⟨_, rfl⟩
        cases n with
        | none => exact ⟨_, rfl⟩
        | some n =>
            dsimp only
            cases K.link s' n <;> exact ⟨_, rfl⟩
  | sysUnlink pathname =>
      rw [KeptFit, ← vfsResolvePath_ok_iff, run, Syscall.sysUnlink, vfsUnlink]
      rcases vfsResolvePath K.toDriver v (some pathname) s with e | ⟨n, s'⟩
      · exact iff_of_false (by rintro ⟨r, ⟨⟩⟩) (by rintro ⟨r, ⟨⟩⟩)
      · refine iff_of_true ?_ ⟨_, rfl⟩
        cases n with
        | none => exact ⟨_, rfl⟩
        | some n =>
            dsimp only
            cases K.unlink s' n <;> exact ⟨_, rfl⟩
  | sysMount dir =>
      rw [KeptFit, run, Syscall.sysMount, vfsMount]
      split
      · rename_i hroot
        obtain rfl := stringCompare_eq_zero.mp hroot
        exact iff_of_true ⟨_, rfl⟩ (.inl (by decide))
      · split
        · rename_i hroom
          rw [or_iff_left (Nat.not_le.mpr hroom)]
          split
          · rename_i hlt
            exact iff_of_true ⟨_, rfl⟩ hlt
          · rename_i hlong
            exact iff_of_false (by rintro ⟨r, ⟨⟩⟩) hlong
        · rename_i hfull
          exact iff_of_true ⟨_, rfl⟩ (.inr (Nat.not_lt.mp hfull))
  | sysUmount special => exact iff_of_true ⟨_, rfl⟩ trivial

theorem keepsBuffers_iff {call : PathCall} (hv : PathsFit v) :
    call.KeepsBuffers K v s ↔ call.KeptFit K v s := by
  constructor
  · exact fun h => (inside_iff hv).mp ⟨h.token, h.path⟩
  · intro h
    obtain ⟨htoken, hpath⟩ := (inside_iff hv).mpr h
    exact ⟨htoken, hpath, run_tooLong hv h⟩

end PathCall

/-- **Paths of the user.**  In every state reached by mounts and unmounts, a call stores inside the
arrays, and fails without an effect on the mount table if its path is too long, exactly if what it
looks up or keeps fits. -/
theorem keeps_buffers_iff (K : Kernel N σ) {calls : List (VfsCall N)} {v : Vfs N}
    (hrun : Run VfsStep vfsInit calls v) (s : σ) (call : PathCall) :
    call.KeepsBuffers K v s ↔ call.KeptFit K v s :=
  PathCall.keepsBuffers_iff (pathsFit_run hrun)

/-- A mount at `/m`. -/
theorem keeps_buffers_mount :
    ∃ (K : Kernel Unit Unit) (v : Vfs Unit) (m : StrChar), m ≠ slash ∧
      (PathCall.sysMount [slash, m]).KeepsBuffers K v () := by
  have hrun : Run VfsStep vfsInit [.mount [slash] (some ()) 0] (kmainVfs ()) := .one rfl
  exact ⟨emptyKernel, kmainVfs (), ⟨0x6D, by decide⟩, by decide,
    (keeps_buffers_iff emptyKernel hrun () (.sysMount [slash, ⟨0x6D, by decide⟩])).mpr
      (.inl (by decide))⟩

/-- A name of 128 characters, which is not there: its terminator is stored behind `token`. -/
theorem long_name_overruns :
    ¬ ∀ (K : Kernel Unit Unit) (calls : List (VfsCall Unit)) (v : Vfs Unit),
      Run VfsStep vfsInit calls v → ∀ s (call : PathCall), call.KeepsBuffers K v s := by
  intro hall
  let name : List StrChar := List.replicate 128 ⟨0x61, by decide⟩
  have hrun : Run VfsStep vfsInit [.mount [slash] (some ()) 0] (kmainVfs ()) := .one rfl
  have hkept := (PathCall.keepsBuffers_iff (pathsFit_run hrun)).mp
    (hall emptyKernel _ _ hrun () (.sysOpen (slash :: name)))
  have hcomp : components slash (slash :: name) = [name] := by decide +kernel
  have hlt := hkept rfl () rfl [] name [] hcomp (Option.some_ne_none _)
  exact absurd hlt (by decide +kernel)

end ZeptoOS.Syscall
