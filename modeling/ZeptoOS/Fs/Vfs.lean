import Mathlib.Data.BitVec
import ZeptoOS.Lib.Path
import ZeptoOS.Lib.Run

/-!
# Fs — Vfs

`kernel/fs/vfs.c`: the mount table with `vfs_mount` and `vfs_umount`, and `vfs_finddir` and
`vfs_resolve_path`.  A string is the list of its characters before the terminator.

Nodes are pointers, and `Driver` is what the file systems make of them: the fields of a node in a
state of the drivers, and the `finddir` functions, which may change that state.  A store outside
`token` or the `path` of a mount point is a `Fault`.
-/

namespace ZeptoOS.Fs
open Lib

/-- A character of a string: a byte, but not the terminator. -/
abbrev StrChar := {b : BitVec 8 // b ≠ 0}

/-- `'/'` -/
def slash : StrChar := ⟨0x2F, by decide⟩

/-- A store outside an array. -/
inductive Fault where
  | overrun
deriving DecidableEq

/-- The nodes of the file systems, with the fields `vfs_finddir` reads. -/
structure Driver (N σ : Type*) where
  flags : σ → N → BitVec 32
  finddir : σ → N → Option (List StrChar → σ → Option N × σ)

/-- `struct mount_point` -/
structure MountPoint (N : Type*) where
  path : List StrChar
  node : Option N

/-- The static state of `vfs.c`: `root_node`, and `mounts` up to `mount_count`. -/
structure Vfs (N : Type*) where
  rootNode : Option N
  mounts : List (MountPoint N)

def maxMounts : ℕ := 8

/-- The size of `token`, and of the `path` of a mount point. -/
def pathSize : ℕ := 128

variable {N σ : Type*}

/-- `string_compare` -/
def stringCompare : List StrChar → List StrChar → ℤ
  | [], [] => 0
  | [], d :: _ => 0 - d.1.toNat
  | c :: _, [] => c.1.toNat
  | c :: cs, d :: ds => if c = d then stringCompare cs ds else c.1.toNat - d.1.toNat

/-- `vfs_init` -/
def vfsInit : Vfs N := ⟨none, []⟩

/-- `vfs_finddir` -/
def vfsFinddir (D : Driver N σ) (node : Option N) (name : List StrChar) (s : σ) : Option N × σ :=
  match node with
  | none => (none, s)
  | some n =>
      if D.flags s n &&& 2 = 0 then (none, s)
      else
        match D.finddir s n with
        | none => (none, s)
        | some finddir => finddir name s

/-- The inner loop of `vfs_resolve_path`, with room for `room` characters in `token`: the token, and
the path from where it ends. -/
def readToken : ℕ → List StrChar → Except Fault (List StrChar × List StrChar)
  | 0, _ => .error .overrun
  | _ + 1, [] => .ok ([], [])
  | room + 1, c :: cs =>
      if c = slash then .ok ([], c :: cs)
      else
        match readToken room cs with
        | .error e => .error e
        | .ok (token, path) => .ok (c :: token, path)

/-- `if (path[i] == '/') i++` -/
def skipSlash : List StrChar → List StrChar
  | [] => []
  | c :: cs => if c = slash then cs else c :: cs

theorem readToken_shorter {room : ℕ} {c : StrChar} {cs token path : List StrChar}
    (h : readToken room (c :: cs) = .ok (token, path)) : (skipSlash path).length ≤ cs.length := by
  induction room generalizing c cs token path with
  | zero => cases h
  | succ room ih =>
      rw [readToken] at h
      split at h
      · rename_i hc
        cases h
        rw [skipSlash, if_pos hc]
      · split at h
        · cases h
        · rename_i token' path' hread
          cases h
          cases cs with
          | nil =>
              cases room with
              | zero => cases hread
              | succ room => cases hread; exact Nat.le_refl 0
          | cons d ds => exact Nat.le_succ_of_le (ih hread)

/-- The outer loop of `vfs_resolve_path`. -/
def resolveLoop (D : Driver N σ) (current : N) (path : List StrChar) (s : σ) :
    Except Fault (Option N × σ) :=
  match path with
  | [] => .ok (some current, s)
  | c :: cs =>
      match h : readToken pathSize (c :: cs) with
      | .error e => .error e
      | .ok (token, rest) =>
          have : (skipSlash rest).length ≤ cs.length := readToken_shorter h
          if token = [] then resolveLoop D current (skipSlash rest) s
          else
            match vfsFinddir D (some current) token s with
            | (none, s) => .ok (none, s)
            | (some n, s) => resolveLoop D n (skipSlash rest) s
termination_by path.length

/-- `vfs_resolve_path` -/
def vfsResolvePath (D : Driver N σ) (v : Vfs N) (path : Option (List StrChar)) (s : σ) :
    Except Fault (Option N × σ) :=
  match path with
  | none | some [] => .ok (none, s)
  | some (c :: cs) =>
      if c ≠ slash then .ok (none, s)
      else
        match v.rootNode with
        | none => .ok (none, s)
        | some current =>
            if cs = [] then .ok (some current, s) else resolveLoop D current cs s

/-- `vfs_mount`: what it returns, and the state after. -/
def vfsMount (v : Vfs N) (path : List StrChar) (localRoot : Option N) :
    Except Fault (ℤ × Vfs N) :=
  if stringCompare path [slash] = 0 then
    .ok (0, ⟨localRoot, ⟨[slash], localRoot⟩ :: v.mounts.tail⟩)
  else if v.mounts.length < maxMounts then
    if path.length < pathSize then
      .ok (0, { v with mounts := v.mounts ++ [⟨path, localRoot⟩] })
    else .error .overrun
  else .ok (-1, v)

/-- The table without the first mount point at `path`, if there is one. -/
def removeMount (path : List StrChar) : List (MountPoint N) → Option (List (MountPoint N))
  | [] => none
  | m :: ms =>
      if stringCompare m.path path = 0 then some ms else (removeMount path ms).map (m :: ·)

/-- `vfs_umount` -/
def vfsUmount (v : Vfs N) (path : List StrChar) : ℤ × Vfs N :=
  match removeMount path v.mounts with
  | some mounts => (0, { v with mounts := mounts })
  | none => (-1, v)

/-- A call that changes the mount table, with what it returns. -/
inductive VfsCall (N : Type*) where
  | mount (path : List StrChar) (node : Option N) (ret : ℤ)
  | umount (path : List StrChar) (ret : ℤ)

/-- One call. -/
def VfsStep (v : Vfs N) (call : VfsCall N) (v' : Vfs N) : Prop :=
  match call with
  | .mount path node ret => vfsMount v path node = .ok (ret, v')
  | .umount path ret => vfsUmount v path = (ret, v')

theorem stringCompare_eq_zero {s t : List StrChar} : stringCompare s t = 0 ↔ s = t := by
  have hpos : ∀ c : StrChar, c.1.toNat ≠ 0 := fun c h => c.2 (BitVec.eq_of_toNat_eq h)
  induction s generalizing t with
  | nil =>
      cases t with
      | nil => simp [stringCompare]
      | cons d ds =>
          have hd := hpos d
          simp only [stringCompare, reduceCtorEq, iff_false]
          omega
  | cons c cs ih =>
      cases t with
      | nil =>
          have hc := hpos c
          simp only [stringCompare, reduceCtorEq, iff_false]
          omega
      | cons d ds =>
          rw [stringCompare, List.cons.injEq]
          split
          · rename_i e
            exact (ih (t := ds)).trans (and_iff_right e).symm
          · rename_i hne
            have hne' : c.1.toNat ≠ d.1.toNat :=
              fun h => hne (Subtype.ext (BitVec.eq_of_toNat_eq h))
            simp only [hne, false_and, iff_false]
            omega

end ZeptoOS.Fs
