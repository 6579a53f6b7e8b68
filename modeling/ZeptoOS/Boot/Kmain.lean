import ZeptoOS.Boot.Elf
import ZeptoOS.Fs.Tar
import ZeptoOS.I386.Vmm

/-!
# Boot — Kmain

`kmain` of `kernel/main.c`, as far as memory is concerned: `pmm_init`, `init_paging`, and the load
of `init` out of the boot archive, which is copied to `0x400000` and from there to where its program
headers say.  The other calls set up devices and variables of the kernel.

`none` is the panic of `pmm_alloc`, or a walk over the memory map or the archive that has not ended
within the fuel.  The stores of the copy and those of `elf_load` are recorded from empty.
-/

namespace ZeptoOS
open Lib Fs

/-! ### Paging -/

/-- Memory in words. -/
def toWords (mem : Bytes) : Store ℕ I386.Word :=
  ⟨fun a => BitVec.ofNat 32 (Target.i386.le mem a 4), []⟩

/-- Memory in bytes. -/
def toBytes (m : Store ℕ I386.Word) : Bytes :=
  fun a => (m.cell (a - a % 4)).extractLsb' (8 * (a % 4)) 8

/-- `init_paging`: memory and the bitmap after it.  That of x86_64 takes the tables that the boot
code made. -/
def Target.initPaging (t : Target) (mem : Bytes) (b : Bitmap) : Option (Bytes × Bitmap) :=
  match t with
  | .i386 => (I386.initPaging ⟨toWords mem, b⟩).map fun (_, h) => (toBytes h.mem, h.pool)
  | .x86_64 => some (mem, b)

/-! ### The boot archive -/

/-- `tar_read`, with the buffer in the memory that the archive lies in. -/
def tarReadInto (t : Target) (tar : Tar) (m : ByteMem) (node : TarNode) (offset size : BitVec 32)
    (buffer : ℕ) : BitVec 32 × ByteMem :=
  match tar.fileEntries[node.inode.toNat]? with
  | none => (0, m)
  | some f =>
      if f.size ≤ offset then (0, m)
      else
        let size := if f.size < offset + size then f.size - offset else size
        (size, m.setWhile (fun _ => size) (fun i => t.ptr (buffer + i))
          (fun m i => m.cell (t.ptr ((f.address + offset).toNat + i))) 0)

/-! ### kmain -/

/-- `"init"` -/
def initName : List Byte := [0x69, 0x6E, 0x69, 0x74]

/-- `elf_buffer` -/
def elfBuffer : ℕ := 0x400000

/-- A boot that loaded `init`: the bitmap that `pmm_init` left and the one that `init_paging` left,
the node of `init`, the copy of it, and what `elf_load` returned and left. -/
structure InitLoad where
  free : Bitmap
  pool : Bitmap
  init : TarNode
  staged : ByteMem
  entry : ℕ
  loaded : ByteMem

/-- What `kmain` prints before the interrupts are enabled, or the halt. -/
inductive BootResult where
  | invalidMagic
  | initrdMissing
  | initMissing
  | loadFailed
  | loaded (L : InitLoad)

/-- The load of `init`, over the memory and the bitmap that `init_paging` left. -/
def loadInit (t : Target) (mem : Bytes) (mb : MultibootInfo) (free pool : Bitmap) (fuel : ℕ) :
    Option BootResult :=
  if 0 < mb.modsCount then do
    let tar ← tarParse mem fuel (BitVec.ofNat 32 (modStart t mem mb 0))
    match tarFinddir tar initName with
    | none => some .initMissing
    | some node =>
        -- only the nodes of files have a `read`
        if node.read.isNone then some .initMissing
        else
          let (_, staged) := tarReadInto t tar ⟨mem, []⟩ node 0 node.length elfBuffer
          let (entry, loaded) := elfLoad t elfBuffer ⟨staged.cell, []⟩
          if entry = 0 then some .loadFailed
          else some (.loaded ⟨free, pool, node, staged, entry.toNat, loaded⟩)
  else some .initrdMissing

/-- `kmain` -/
def kmain (t : Target) (k : KernelImage) (mem : Bytes) (magic : BitVec 32) (mb : MultibootInfo)
    (fuel : ℕ) : Option BootResult :=
  if magic ≠ 0x2BADB002 then some .invalidMagic
  else do
    let free ← pmmInit t mem k mb fuel
    let (mem, pool) ← t.initPaging mem free
    loadInit t mem mb free pool fuel

/-! ### What a boot stores -/

/-- A node that `tar_finddir` finds is that of an entry. -/
theorem tarFinddir_entry {mem : Bytes} {fuel : ℕ} {a : BitVec 32} {tar : Tar} {name : List Byte}
    {node : TarNode} (hparse : tarParse mem fuel a = some tar)
    (hfind : tarFinddir tar name = some node) :
    ∃ f, tar.fileEntries[node.inode.toNat]? = some f ∧ f.size = node.length := by
  obtain ⟨i, -, hnode⟩ := Option.bind_eq_some_iff.mp hfind
  obtain ⟨f, hf, rfl, hinode⟩ := tarParse_node hparse hnode
  exact ⟨f, by rw [hinode, hf], rfl⟩

/-- The copy of a whole file stores to as many bytes as it has. -/
theorem tarReadInto_stored {t : Target} {tar : Tar} {m : ByteMem} {node : TarNode} (buffer : ℕ)
    {f : FileEntry} (hf : tar.fileEntries[node.inode.toNat]? = some f)
    (hsize : f.size = node.length) :
    Store.Stored m (tarReadInto t tar m node 0 node.length buffer).2
      fun a => ∃ j < node.length.toNat, a = t.ptr (buffer + j) := by
  rw [tarReadInto, hf, ← hsize]
  dsimp only
  -- nothing is stored for an empty file
  by_cases hzero : f.size ≤ 0
  · rw [if_pos hzero]
    have hempty : f.size.toNat = 0 := Nat.le_zero.mp (BitVec.le_def.mp hzero)
    rw [hempty]
    exact Store.Stored.none.congr fun a => ⟨False.elim, fun ⟨j, hj, _⟩ => absurd hj (by omega)⟩
  · have hwhole : (if f.size < 0 + f.size then f.size - 0 else f.size) = f.size :=
      if_neg (by simp)
    rw [if_neg hzero, hwhole]
    refine (Store.Stored.setWhile (S := fun _ => True) (fun _ _ => rfl)
      fun _ _ _ => trivial).congr fun a => ⟨?_, ?_⟩
    · rintro ⟨j, -, hj, rfl⟩
      exact ⟨j, hj, rfl⟩
    · rintro ⟨j, hj, rfl⟩
      exact ⟨j, Nat.zero_le j, hj, rfl⟩

/-- The copy of `init` stores to the byte at `a`. -/
def InitLoad.Staged (t : Target) (L : InitLoad) (a : ℕ) : Prop :=
  ∃ j < L.init.length.toNat, a = t.ptr (elfBuffer + j)

/-- How a boot came to load `init`. -/
structure InitLoad.Boots (t : Target) (k : KernelImage) (mem : Bytes) (mb : MultibootInfo)
    (fuel : ℕ) (L : InitLoad) : Prop where
  pmm : pmmInit t mem k mb fuel = some L.free
  paging : ∃ mem', t.initPaging mem L.free = some (mem', L.pool)
  staged : ∀ a, a ∈ L.staged.written ↔ L.Staged t a
  accepted : (elfLoad t elfBuffer ⟨L.staged.cell, []⟩).1 ≠ 0
  loaded : (elfLoad t elfBuffer ⟨L.staged.cell, []⟩).2 = L.loaded

theorem kmain_loaded {t : Target} {k : KernelImage} {mem : Bytes} {magic : BitVec 32}
    {mb : MultibootInfo} {fuel : ℕ} {L : InitLoad}
    (h : kmain t k mem magic mb fuel = some (.loaded L)) : L.Boots t k mem mb fuel := by
  rw [kmain] at h
  split at h
  · cases h
  simp only [Option.bind_eq_bind, Option.bind_eq_some_iff] at h
  obtain ⟨free, hfree, ⟨mem', pool⟩, hpaging, h⟩ := h
  rw [loadInit] at h
  split at h
  · obtain ⟨tar, hparse, h⟩ := Option.bind_eq_some_iff.mp h
    split at h
    · cases h
    · rename_i node hfind
      split at h
      · cases h
      dsimp only at h
      split at h
      · cases h
      · rename_i hentry
        cases h
        obtain ⟨f, hf, hsize⟩ := tarFinddir_entry hparse hfind
        have hstaged := (tarReadInto_stored (t := t) (m := ⟨mem', []⟩) elfBuffer hf
          hsize).written
        exact ⟨hfree, ⟨mem', hpaging⟩,
          fun a => (hstaged a).trans (or_iff_right List.not_mem_nil), hentry, rfl⟩
  · cases h

end ZeptoOS
