import ZeptoOS.Fs.Ext2Inode
import ZeptoOS.Fs.Resolve

/-!
# Fs — Ext2Nodes

The nodes of a mounted ext2 file system.

There are two: the `root` of `ext2_mount`, and the one `target_node` that every match of
`ext2_node_finddir` overwrites.  A resolved node goes on denoting its file exactly if it is the
root, or the last match of the lookups since was of the same inode (`resolved_valid_iff_kept`).
-/

namespace ZeptoOS.Fs
open Lib

/-- The static nodes of `ext2.c`. -/
inductive Ext2Node where
  | root
  | target
deriving DecidableEq

/-- The disk, `target_node`, and whether a walk has left its buffers. -/
structure Ext2State where
  disk : Disk
  target : NodeFields
  fault : Bool

/-- What `ext2_mount` sets of `root`. -/
def rootFields : NodeFields := ⟨2, 0o755, 0, 0, 0, vfsDirectory⟩

/-- The fields of a node. -/
def Ext2State.fields (s : Ext2State) : Ext2Node → NodeFields
  | .root => rootFields
  | .target => s.target

/-- The directory functions of the nodes. -/
def ext2Driver (E : Ext2) : Driver Ext2Node Ext2State where
  flags := fun s n => BitVec.ofNat 32 (s.fields n).flags
  finddir := fun s n => some fun name _ =>
    match ext2NodeFinddir E s.disk (s.fields n).inode name with
    | .error _ => (none, { s with fault := true })
    | .ok none => (none, s)
    | .ok (some f) => (some .target, { s with target := f })

/-- `vfs_read` of a node; its `read` is `ext2_node_read`. -/
def ext2VfsRead (E : Ext2) (s : Ext2State) (n : Ext2Node) (offset size : ℕ) :
    Except Ext2Fault (List Byte) :=
  ext2NodeRead E s.disk (s.fields n).inode offset size

/-- `vfs_resolve_path`, by a walk that stays within its buffers. -/
def LookupStep (E : Ext2) (v : Vfs Ext2Node) (s : Ext2State) (path : List StrChar)
    (s' : Ext2State) : Prop :=
  ∃ r, vfsResolvePath (ext2Driver E) v (some path) s = .ok (r, s') ∧ s'.fault = false

/-- The node denotes what it did: its inode, length and flags are the same, and what it reads. -/
def StillDenotes (E : Ext2) (s s' : Ext2State) (n : Ext2Node) : Prop :=
  (s'.fields n).inode = (s.fields n).inode ∧ (s'.fields n).length = (s.fields n).length ∧
    (s'.fields n).flags = (s.fields n).flags ∧
    ∀ offset size, ext2VfsRead E s' n offset size = ext2VfsRead E s n offset size

/-! ### What a lookup matches -/

/-- The entries that the components of a path match, from the node with the fields `current` on. -/
def matched (E : Ext2) (disk : Disk) : NodeFields → List (List StrChar) → List NodeFields
  | _, [] => []
  | current, c :: cs =>
      if BitVec.ofNat 32 current.flags &&& 2 = 0 then []
      else
        match ext2NodeFinddir E disk current.inode c with
        | .ok (some f) => f :: matched E disk f cs
        | _ => []

/-- The entries that a path matches. -/
def lookups (E : Ext2) (disk : Disk) (path : List StrChar) : List NodeFields :=
  if path.head? = some slash then matched E disk rootFields (components slash path) else []

/-- The last match of the paths `qs`, if there is one, is of the inode that `p` matched last. -/
def LastMatchKept (E : Ext2) (disk : Disk) (p : List StrChar) (qs : List (List StrChar)) : Prop :=
  ∀ f g, (lookups E disk p).getLast? = some f →
    (qs.flatMap (lookups E disk)).getLast? = some g → g.inode = f.inode

variable {E : Ext2}

theorem ext2_vfsFinddir (n : Ext2Node) (name : List StrChar) (s : Ext2State) :
    vfsFinddir (ext2Driver E) (some n) name s =
      if BitVec.ofNat 32 (s.fields n).flags &&& 2 = 0 then (none, s)
      else
        match ext2NodeFinddir E s.disk (s.fields n).inode name with
        | .error _ => (none, { s with fault := true })
        | .ok none => (none, s)
        | .ok (some f) => (some .target, { s with target := f }) := rfl

/-- A walk leaves the last entry it matched in `target_node`. -/
theorem walkPath_target {cs : List (List StrChar)} {n : Ext2Node} {s s' : Ext2State}
    {r : Option Ext2Node} (h : walkPath (ext2Driver E) n cs s = (r, s')) (hok : s'.fault = false) :
    s.fault = false ∧ s'.disk = s.disk ∧
      s'.target = (matched E s.disk (s.fields n) cs).getLast?.getD s.target ∧
      ∀ n', r = some n' →
        (cs = [] ∧ n' = n) ∨ (n' = .target ∧ matched E s.disk (s.fields n) cs ≠ []) := by
  induction cs generalizing n s with
  | nil =>
      cases h
      exact ⟨hok, rfl, rfl, fun n' hn' => .inl ⟨rfl, (Option.some.inj hn').symm⟩⟩
  | cons c cs ih =>
      rw [walkPath, ext2_vfsFinddir] at h
      rw [matched]
      by_cases hdir : BitVec.ofNat 32 (s.fields n).flags &&& 2 = 0
      · rw [if_pos hdir] at h ⊢
        cases h
        exact ⟨hok, rfl, rfl, fun n' hn' => by cases hn'⟩
      · rw [if_neg hdir] at h ⊢
        cases hfind : ext2NodeFinddir E s.disk (s.fields n).inode c with
        | error e =>
            rw [hfind] at h
            cases h
            cases hok
        | ok entry =>
            rw [hfind] at h
            cases entry with
            | none =>
                cases h
                exact ⟨hok, rfl, rfl, fun n' hn' => by cases hn'⟩
            | some f =>
                -- the walk goes on at `target_node`, which holds the match
                obtain ⟨hfault, hdisk, htarget, hnode⟩ := ih h
                refine ⟨hfault, hdisk, ?_, fun n' hn' => .inr ⟨?_, List.cons_ne_nil _ _⟩⟩
                · rw [List.getLast?_cons]
                  exact htarget
                · rcases hnode n' hn' with ⟨-, rfl⟩ | ⟨rfl, -⟩ <;> rfl

/-- A lookup leaves the last entry its path matches in `target_node`, and returns that node if it
matched any. -/
theorem lookup_target {v : Vfs Ext2Node} (hroot : v.rootNode = some .root) {s s' : Ext2State}
    {path : List StrChar} {r : Option Ext2Node}
    (h : vfsResolvePath (ext2Driver E) v (some path) s = .ok (r, s')) (hok : s'.fault = false) :
    s'.disk = s.disk ∧ s'.target = (lookups E s.disk path).getLast?.getD s.target ∧
      ∀ n, r = some n → n = .root ∧ lookups E s.disk path = [] ∨
        n = .target ∧ lookups E s.disk path ≠ [] := by
  rw [lookups]
  match path with
  | [] =>
      cases h
      exact ⟨rfl, rfl, fun n hn => by cases hn⟩
  | c :: cs =>
      by_cases hc : c = slash
      · subst hc
        obtain ⟨-, hdisk, htarget, hnode⟩ := walkPath_target (vfsResolvePath_ok hroot h) hok
        rw [if_pos (show (slash :: cs).head? = some slash from rfl)]
        refine ⟨hdisk, htarget, fun n hn => ?_⟩
        rcases hnode n hn with ⟨hnil, rfl⟩ | hnode
        · exact .inl ⟨rfl, by rw [hnil, matched]⟩
        · exact .inr hnode
      · have hhead : ¬ (c :: cs).head? = some slash := fun e => hc (Option.some.inj e)
        rw [vfsResolvePath, if_pos hc] at h
        cases h
        rw [if_neg hhead]
        exact ⟨rfl, rfl, fun n hn => by cases hn⟩

/-- Lookups in a row leave the last entry that any of them matched. -/
theorem run_target {v : Vfs Ext2Node} (hroot : v.rootNode = some .root) {s s' : Ext2State}
    {qs : List (List StrChar)} (h : Run (LookupStep E v) s qs s') :
    s'.disk = s.disk ∧
      s'.target = (qs.flatMap (lookups E s.disk)).getLast?.getD s.target := by
  induction h with
  | refl => exact ⟨rfl, rfl⟩
  | more hstep _ ih =>
      obtain ⟨r, hr, hok⟩ := hstep
      obtain ⟨hdisk, htarget, -⟩ := lookup_target hroot hr hok
      rw [hdisk] at ih
      refine ⟨ih.1, ih.2.trans ?_⟩
      rw [htarget, List.flatMap_cons, List.getLast?_append, Option.getD_or]

/-! ### What a node denotes -/

/-- The fields are those of the inode they name. -/
def OfInode (E : Ext2) (disk : Disk) (f : NodeFields) : Prop :=
  ∃ record, ext2ReadInode E disk f.inode = .ok record ∧ f = targetFields f.inode record

theorem OfInode.unique {disk : Disk} {f g : NodeFields} (hf : OfInode E disk f)
    (hg : OfInode E disk g) (h : g.inode = f.inode) : g = f := by
  obtain ⟨record, hread, hfields⟩ := hf
  obtain ⟨record', hread', hfields'⟩ := hg
  rw [h] at hread' hfields'
  obtain rfl := Except.ok.inj (hread.symm.trans hread')
  exact hfields'.trans hfields.symm

/-- A match has the fields of the inode it names. -/
theorem finddirLoop_some {disk : Disk} {inode : Inode} {name : List StrChar} {offset : ℕ}
    {f : NodeFields} (h : finddirLoop E disk inode name offset = .ok (some f)) :
    OfInode E disk f := by
  fun_induction finddirLoop E disk inode name offset with
  | case4 _ _ _ _ _ _ _ ih => exact ih h
  | case7 _ _ _ _ _ _ _ _ _ ih => exact ih h
  | case9 _ _ _ _ _ _ _ _ _ record hrecord =>
      cases h
      exact ⟨record, hrecord, rfl⟩
  | _ => cases h

theorem matched_ofInode {disk : Disk} {cs : List (List StrChar)} {current f : NodeFields}
    (h : f ∈ matched E disk current cs) : OfInode E disk f := by
  induction cs generalizing current with
  | nil => cases h
  | cons c cs ih =>
      rw [matched] at h
      split at h
      · cases h
      · split at h
        · rename_i g hfind
          rcases List.mem_cons.mp h with rfl | h
          · rw [ext2NodeFinddir] at hfind
            split at hfind
            · cases hfind
            · exact finddirLoop_some hfind
          · exact ih h
        · cases h

theorem lookups_ofInode {disk : Disk} {path : List StrChar} {f : NodeFields}
    (h : f ∈ lookups E disk path) : OfInode E disk f := by
  rw [lookups] at h
  split at h
  · exact matched_ofInode h
  · cases h

/-- **A resolved node and later lookups.**  After any lookups the node that `p` resolved to denotes
what it did exactly if the last entry they matched, if any, is of the inode `p` matched last; the
root matched none, and always does. -/
theorem resolved_valid_iff_kept {v : Vfs Ext2Node} (hroot : v.rootNode = some .root)
    {s s₁ s' : Ext2State} {p : List StrChar} {n : Ext2Node}
    (hp : vfsResolvePath (ext2Driver E) v (some p) s = .ok (some n, s₁)) (hok : s₁.fault = false)
    {qs : List (List StrChar)} (hrun : Run (LookupStep E v) s₁ qs s') :
    StillDenotes E s₁ s' n ↔ LastMatchKept E s.disk p qs := by
  obtain ⟨hdisk₁, htarget₁, hnode⟩ := lookup_target hroot hp hok
  obtain ⟨hdisk, htarget⟩ := run_target hroot hrun
  have hsame : s'.fields n = s₁.fields n → StillDenotes E s₁ s' n := by
    intro h
    refine ⟨by rw [h], by rw [h], by rw [h], fun offset size => ?_⟩
    rw [ext2VfsRead, ext2VfsRead, hdisk, h]
  rw [hdisk₁] at htarget
  rcases hnode n rfl with ⟨rfl, hnil⟩ | ⟨rfl, hne⟩
  · -- no lookup writes to `root`
    refine iff_of_true (hsame rfl) fun f g hf _ => ?_
    rw [hnil] at hf
    cases hf
  · obtain ⟨f, hf⟩ := Option.ne_none_iff_exists'.mp (mt List.getLast?_eq_none_iff.mp hne)
    rw [hf, Option.getD_some] at htarget₁
    cases hg : (qs.flatMap (lookups E s.disk)).getLast? with
    | none =>
        rw [hg, Option.getD_none] at htarget
        refine iff_of_true (hsame htarget) fun f' g _ hg' => ?_
        rw [hg] at hg'
        cases hg'
    | some g =>
        rw [hg, Option.getD_some] at htarget
        constructor
        · intro h f' g' hf' hg'
          obtain rfl := Option.some.inj (hf.symm.trans hf')
          obtain rfl := Option.some.inj (hg.symm.trans hg')
          rw [← htarget, ← htarget₁]
          exact h.1
        · intro h
          -- on one disk the inode number fixes the other fields
          obtain ⟨q, -, hq⟩ := List.mem_flatMap.mp (List.mem_of_getLast? hg)
          have hfields := (lookups_ofInode (List.mem_of_getLast? hf)).unique
            (lookups_ofInode hq) (h f g hf hg)
          exact hsame (htarget.trans (hfields.trans htarget₁.symm))

/-- The lookup of an entry of the root directory. -/
theorem lookup_entry {v : Vfs Ext2Node} (hroot : v.rootNode = some .root) {s : Ext2State}
    {path name : List StrChar} {f : NodeFields} (hfits : Fits (slash :: path))
    (hcomp : components slash (slash :: path) = [name])
    (hfind : ext2NodeFinddir E s.disk 2 name = .ok (some f)) :
    vfsResolvePath (ext2Driver E) v (some (slash :: path)) s =
      .ok (some .target, { s with target := f }) := by
  have hdir : ¬ BitVec.ofNat 32 (s.fields .root).flags &&& 2 = 0 := by
    change ¬ BitVec.ofNat 32 vfsDirectory &&& 2 = 0
    decide
  rw [vfsResolvePath_eq hroot hfits, hcomp, walkPath, ext2_vfsFinddir, if_neg hdir]
  rw [show (s.fields .root).inode = 2 from rfl, hfind]
  rfl

/-- An image whose root directory has the files `a`, inode 7, and `b`, inode 8. -/
def twoFiles : Disk := fun a =>
  if a = 5253 then 4 else if a = 5288 then 10
  else if a = 5892 then 5 else if a = 6020 then 9
  else if a = 10240 then 7 else if a = 10244 then 12 else if a = 10246 then 1
  else if a = 10247 then 1 else if a = 10248 then 0x61
  else if a = 10252 then 8 else if a = 10256 then 0xF4 else if a = 10257 then 3
  else if a = 10258 then 1 else if a = 10259 then 1 else if a = 10260 then 0x62
  else twoGroups a

theorem twoFiles_mount : ext2Mount twoFiles = .ok (some ⟨8, 5, 1024⟩) := by
  decide +kernel

def charA : StrChar := ⟨0x61, by decide⟩
def charB : StrChar := ⟨0x62, by decide⟩

def fieldsA : NodeFields := ⟨7, 0, 0, 0, 5, 1⟩
def fieldsB : NodeFields := ⟨8, 0, 0, 0, 9, 1⟩

/-- The table with the file system mounted at `/`. -/
def ext2AtRoot : Vfs Ext2Node := ⟨some .root, [⟨[slash], some .root⟩]⟩

theorem lookup_a {s : Ext2State} (hs : s.disk = twoFiles) :
    vfsResolvePath (ext2Driver ⟨8, 5, 1024⟩) ext2AtRoot (some [slash, charA]) s =
      .ok (some .target, { s with target := fieldsA }) := by
  have hfind : ext2NodeFinddir ⟨8, 5, 1024⟩ twoFiles 2 [charA] = .ok (some fieldsA) := by
    decide +kernel
  exact lookup_entry rfl (by decide) (by decide +kernel) (hs ▸ hfind)

theorem lookup_b {s : Ext2State} (hs : s.disk = twoFiles) :
    vfsResolvePath (ext2Driver ⟨8, 5, 1024⟩) ext2AtRoot (some [slash, charB]) s =
      .ok (some .target, { s with target := fieldsB }) := by
  have hfind : ext2NodeFinddir ⟨8, 5, 1024⟩ twoFiles 2 [charB] = .ok (some fieldsB) := by
    decide +kernel
  exact lookup_entry rfl (by decide) (by decide +kernel) (hs ▸ hfind)

/-- The node of `/a` denotes it again once `/b` and then `/a` have been looked up. -/
theorem resolved_valid_again :
    StillDenotes ⟨8, 5, 1024⟩ ⟨twoFiles, fieldsA, false⟩ ⟨twoFiles, fieldsA, false⟩ .target := by
  have hrun : Run (LookupStep ⟨8, 5, 1024⟩ ext2AtRoot) ⟨twoFiles, fieldsA, false⟩
      [[slash, charB], [slash, charA]] ⟨twoFiles, fieldsA, false⟩ :=
    .more ⟨_, lookup_b rfl, rfl⟩ (.one ⟨_, lookup_a rfl, rfl⟩)
  have hkept : LastMatchKept ⟨8, 5, 1024⟩ twoFiles [slash, charA]
      [[slash, charB], [slash, charA]] := by
    have hp : (lookups ⟨8, 5, 1024⟩ twoFiles [slash, charA]).getLast? = some fieldsA := by
      decide +kernel
    have hqs : (List.flatMap (lookups ⟨8, 5, 1024⟩ twoFiles)
        [[slash, charB], [slash, charA]]).getLast? = some fieldsA := by
      decide +kernel
    intro f g hf hg
    rw [hp] at hf
    rw [hqs] at hg
    rw [← Option.some.inj hf, ← Option.some.inj hg]
  have hfirst := lookup_a (s := ⟨twoFiles, ⟨0, 0, 0, 0, 0, 0⟩, false⟩) rfl
  exact (resolved_valid_iff_kept rfl hfirst rfl hrun).mpr hkept

/-- The lookup of `/b` makes the node of `/a` one of inode 8. -/
theorem resolved_node_overwritten :
    ¬ ∀ (E : Ext2) (s s₁ s' : Ext2State) (p : List StrChar) (n : Ext2Node)
      (qs : List (List StrChar)), ext2Mount s.disk = .ok (some E) →
      vfsResolvePath (ext2Driver E) ext2AtRoot (some p) s = .ok (some n, s₁) → s₁.fault = false →
      Run (LookupStep E ext2AtRoot) s₁ qs s' → StillDenotes E s₁ s' n := by
  intro hall
  have hfirst := lookup_a (s := ⟨twoFiles, ⟨0, 0, 0, 0, 0, 0⟩, false⟩) rfl
  have hrun : Run (LookupStep ⟨8, 5, 1024⟩ ext2AtRoot) ⟨twoFiles, fieldsA, false⟩
      [[slash, charB]] ⟨twoFiles, fieldsB, false⟩ := .one ⟨_, lookup_b rfl, rfl⟩
  have hinode := (hall _ _ _ _ _ _ _ twoFiles_mount hfirst rfl hrun).1
  exact absurd hinode (by decide)

end ZeptoOS.Fs
