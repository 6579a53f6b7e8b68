import ZeptoOS.Fs.Tar
import ZeptoOS.Syscall.Getdents

/-!
# Syscall — Initrd

The root directory of the boot archive as `sys_getdents` and lookups see it.  Each entry is found
under its name, at the node of its member; but the entry of index `k` has the inode number `k + 1`,
and its node `k`, which for the first is that of the root (`initrd_identity_iff`).
-/

namespace ZeptoOS.Syscall
open Lib Fs

/-- A string in a `char` array, up to its terminator. -/
def cName : List Byte → List StrChar
  | [] => []
  | b :: bs => if h : b = 0 then [] else ⟨b, h⟩ :: cName bs

/-- An entry as the callers of `readdir` read it; its name is terminated within its array. -/
def dirEntry (d : Dirent) : DirEntry where
  name := (cName d.name).take 127
  ino := d.ino
  name_lt := Nat.lt_succ_of_le (List.length_take_le 127 _)

/-- The directory functions of the nodes of an archive. -/
def tarDriver (t : Tar) : DirDriver TarNode Unit where
  flags _ n := n.flags
  finddir _ n :=
    match n.finddir with
    | some .tarFinddir => some fun name s => (tarFinddir t (name.map (·.1)), s)
    | _ => none
  readdir _ n :=
    match n.readdir with
    | some .tarReaddir => some fun index s => ((tarReaddir t index).map dirEntry, s)
    | _ => none

/-- The entry of index `k` and the node found under its name are those of one member, with one
inode number, and no two nodes have the same. -/
structure IdentityAgrees (t : Tar) : Prop where
  entry : ∀ k < t.fileCount, ∃ d n,
    vfsReaddir (tarDriver t) (some rootNode) (BitVec.ofNat 32 k) () = (some d, ()) ∧
      vfsFinddir (tarDriver t).toDriver (some rootNode) d.name () = (some n, ()) ∧
      t.tarNodes[k + 1]? = some n ∧ n.inode = d.ino
  nodup : (t.tarNodes.map TarNode.inode).Nodup

theorem cName_map {bs : List Byte} (h : ∀ b ∈ bs, b ≠ 0) : (cName bs).map (·.1) = bs := by
  induction bs with
  | nil => rfl
  | cons b bs ih =>
      rw [cName, dif_neg (h b List.mem_cons_self), List.map_cons,
        ih fun b hb => h b (List.mem_cons_of_mem _ hb)]

theorem copyName_fits {mem : ℕ → Byte} (n p : ℕ) :
    (copyName mem n p).length ≤ n ∧ ∀ b ∈ copyName mem n p, b ≠ 0 := by
  induction n generalizing p with
  | zero => exact ⟨Nat.le_refl 0, fun b hb => by cases hb⟩
  | succ n ih =>
      rw [copyName]
      split
      · exact ⟨Nat.zero_le _, fun b hb => by cases hb⟩
      · rename_i hp
        refine ⟨Nat.succ_le_succ (ih (p + 1)).1, fun b hb => ?_⟩
        rcases List.mem_cons.mp hb with rfl | hb
        · exact hp
        · exact (ih (p + 1)).2 b hb

/-- What `tar_parse` leaves: at most 32 entries, with names that fit their arrays. -/
theorem tarParse_entries {mem : ℕ → Byte} {fuel : ℕ} {address : BitVec 32} {t : Tar}
    (h : tarParse mem fuel address = some t) :
    t = tarTables t.fileEntries ∧ t.fileCount ≤ maxTarFiles ∧
      ∀ f ∈ t.fileEntries, f.name.length ≤ 127 ∧ ∀ b ∈ f.name, b ≠ 0 := by
  obtain ⟨fs, hfs, rfl⟩ := Option.map_eq_some_iff.mp h
  exact ⟨rfl, parseLoop_length hfs (Nat.zero_le _),
    parseLoop_forall (fun _ _ _ => copyName_fits 127 _) hfs .first fun f hf => by cases hf⟩

/-- The name of an entry is the name recorded. -/
theorem dirEntry_name {k : ℕ} {f : FileEntry} (hlen : f.name.length ≤ 127)
    (hchars : ∀ b ∈ f.name, b ≠ 0) : (dirEntry (fileDirent k f)).name.map (·.1) = f.name := by
  have htake : f.name.take 127 = f.name := List.take_of_length_le hlen
  have hname := cName_map hchars
  rw [dirEntry, fileDirent, htake, List.map_take, hname, htake]

/-- **Lookup.**  Among different names each is found at its own index. -/
theorem tarFinddir_eq {fs : List FileEntry} (hnames : (fs.map FileEntry.name).Nodup) {k : ℕ}
    {f : FileEntry} (hk : fs[k]? = some f) :
    tarFinddir (tarTables fs) f.name = some (fileNode k f) := by
  obtain ⟨hlt, hget⟩ := List.getElem?_eq_some_iff.mp hk
  have hidx : fs.findIdx? (fun g => g.name = f.name) = some k := by
    rw [List.findIdx?_eq_some_iff_getElem]
    refine ⟨hlt, by simp [hget], fun j hjk => ?_⟩
    rw [decide_eq_true_eq, ← hget]
    have hne := (List.pairwise_iff_getElem.mp hnames) j k (by simpa using hjk.trans hlt)
      (by simpa using hlt) hjk
    simpa using hne
  rw [tarFinddir, tarTables]
  dsimp only
  rw [hidx, Option.bind_eq_bind, Option.bind_some, List.getElem?_cons_succ, List.getElem?_mapIdx,
    hk]
  rfl

/-- **Listing and lookup** of the entry of index `k`. -/
theorem lookup_listed {fs : List FileEntry} (hcount : fs.length ≤ maxTarFiles)
    (hfits : ∀ f ∈ fs, f.name.length ≤ 127 ∧ ∀ b ∈ f.name, b ≠ 0)
    (hnames : (fs.map FileEntry.name).Nodup) {k : ℕ} {f : FileEntry} (hk : fs[k]? = some f) :
    vfsReaddir (tarDriver (tarTables fs)) (some rootNode) (BitVec.ofNat 32 k) () =
        (some (dirEntry (fileDirent k f)), ()) ∧
      vfsFinddir (tarDriver (tarTables fs)).toDriver (some rootNode)
        (dirEntry (fileDirent k f)).name () = (some (fileNode k f), ()) ∧
      (tarTables fs).tarNodes[k + 1]? = some (fileNode k f) := by
  obtain ⟨hlen, hchars⟩ := hfits f (List.mem_of_getElem? hk)
  have hlt : k < fs.length := (List.getElem?_eq_some_iff.mp hk).1
  have hindex : (BitVec.ofNat 32 k).toNat = k := by
    unfold maxTarFiles at hcount
    rw [BitVec.toNat_ofNat, Nat.mod_eq_of_lt (by omega)]
  have hdir : ¬ (tarDriver (tarTables fs)).flags () rootNode &&& 2 = 0 := by
    change ¬ rootNode.flags &&& 2 = 0
    decide
  refine ⟨?_, ?_, ?_⟩
  · have hread : tarReaddir (tarTables fs) (BitVec.ofNat 32 k) = some (fileDirent k f) := by
      have hcount : ¬ (tarTables fs).fileCount ≤ k := Nat.not_le.mpr hlt
      rw [tarReaddir, hindex, if_neg hcount, tarTables, List.getElem?_mapIdx, hk]
      rfl
    rw [vfsReaddir, if_neg hdir]
    exact Prod.ext (congrArg (Option.map dirEntry) hread) rfl
  · have hfind := tarFinddir_eq hnames hk
    rw [← dirEntry_name (k := k) hlen hchars] at hfind
    rw [vfsFinddir, if_neg hdir]
    exact Prod.ext hfind rfl
  · rw [tarTables, List.getElem?_cons_succ, List.getElem?_mapIdx, hk]
    rfl

/-- **Identity in the boot archive.**  Each member of a parsed archive is listed and found, with an
inode number one less in its node than in its entry; so the two agree, and the numbers of the nodes
differ from each other, exactly if the archive has no member. -/
theorem initrd_identity_iff {mem : ℕ → Byte} {fuel : ℕ} {address : BitVec 32} {t : Tar}
    (h : tarParse mem fuel address = some t)
    (hnames : (t.fileEntries.map FileEntry.name).Nodup) :
    (∀ k < t.fileCount, ∃ d n,
      vfsReaddir (tarDriver t) (some rootNode) (BitVec.ofNat 32 k) () = (some d, ()) ∧
        vfsFinddir (tarDriver t).toDriver (some rootNode) d.name () = (some n, ()) ∧
        t.tarNodes[k + 1]? = some n ∧ n.inode + 1 = d.ino) ∧
    (IdentityAgrees t ↔ t.fileCount = 0) := by
  obtain ⟨htables, hcount, hfits⟩ := tarParse_entries h
  have hlisted : ∀ k < t.fileCount, ∃ d n,
      vfsReaddir (tarDriver t) (some rootNode) (BitVec.ofNat 32 k) () = (some d, ()) ∧
        vfsFinddir (tarDriver t).toDriver (some rootNode) d.name () = (some n, ()) ∧
        t.tarNodes[k + 1]? = some n ∧ n.inode + 1 = d.ino := by
    intro k hk
    obtain ⟨hread, hfind, hnode⟩ :=
      lookup_listed hcount hfits hnames (List.getElem?_eq_getElem hk)
    rw [← htables] at hread hfind hnode
    exact ⟨_, _, hread, hfind, hnode, rfl⟩
  refine ⟨hlisted, fun hagrees => ?_, fun hzero => ?_⟩
  · by_contra hne
    obtain ⟨d, n, hread, hfind, -, hino⟩ := hlisted 0 (Nat.pos_of_ne_zero hne)
    obtain ⟨d', n', hread', hfind', -, hagree⟩ := hagrees.entry 0 (Nat.pos_of_ne_zero hne)
    obtain rfl : d = d' := Option.some.inj (congrArg Prod.fst (hread.symm.trans hread'))
    obtain rfl : n = n' := Option.some.inj (congrArg Prod.fst (hfind.symm.trans hfind'))
    rw [← hagree] at hino
    simp at hino
  · refine ⟨fun k hk => by omega, ?_⟩
    have hnil : t.fileEntries = [] := List.length_eq_zero_iff.mp hzero
    rw [htables, hnil]
    exact List.nodup_singleton _

/-- An archive of one empty file, whose name is `e`. -/
def oneEmptyFile : ℕ → Byte := fun a => if a = 0x100000 then 0x65 else 0

/-- Its tables. -/
def oneEmptyTables : Tar := tarTables [⟨[0x65], 0x100200, 0, 0⟩]

theorem oneEmptyFile_parse : tarParse oneEmptyFile 2 0x100000 = some oneEmptyTables := by
  have hloop : parseLoop oneEmptyFile 2 [] 0x100000 = some [⟨[0x65], 0x100200, 0, 0⟩] := by
    decide +kernel
  rw [tarParse, hloop]
  rfl

/-- The file is found, and its two numbers differ. -/
theorem initrd_identity_one :
    (∃ d n, vfsReaddir (tarDriver oneEmptyTables) (some rootNode) 0 () = (some d, ()) ∧
      vfsFinddir (tarDriver oneEmptyTables).toDriver (some rootNode) d.name () = (some n, ()) ∧
      n.inode + 1 = d.ino) ∧ ¬ IdentityAgrees oneEmptyTables := by
  obtain ⟨hlisted, hiff⟩ := initrd_identity_iff oneEmptyFile_parse (by decide)
  obtain ⟨d, n, hread, hfind, -, hino⟩ := hlisted 0 (by decide)
  exact ⟨⟨d, n, hread, hfind, hino⟩, fun h => absurd (hiff.mp h) (by decide)⟩

/-- The first file has the inode number of the root. -/
theorem first_file_has_root_inode :
    ¬ ∀ (mem : ℕ → Byte) (fuel : ℕ) (address : BitVec 32) (t : Tar),
      tarParse mem fuel address = some t → (t.fileEntries.map FileEntry.name).Nodup →
      IdentityAgrees t := by
  intro hall
  have hnodup := (hall _ _ _ _ oneEmptyFile_parse (by decide)).nodup
  exact absurd hnodup (by decide)

end ZeptoOS.Syscall
