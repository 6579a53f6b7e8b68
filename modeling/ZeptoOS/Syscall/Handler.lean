import ZeptoOS.Fs.MountTable
import ZeptoOS.Syscall.Getdents

/-!
# Syscall — Handler

`syscall_handler` of `kernel/i386/syscall.c` and `kernel/x64/syscall.c`, with the system calls it
dispatches to.  The two differ in the registers the arguments come in and in their width.

A pointer argument is an address, and a path the string that memory holds there.  The drivers, the
keyboard, the screen and the scheduler are parameters.  A call has no result where the fuel does not
suffice, or where `vfs.c` stores outside an array.
-/

namespace ZeptoOS.Syscall
open Lib Fs

/-- The parts of the kernel behind the system calls. -/
structure Kernel (N σ : Type*) extends DirDriver N σ where
  mkdir : σ → N → Option (List StrChar → BitVec 16 → σ → ℤ × σ)
  link : σ → N → Option (N → List StrChar → σ → ℤ × σ)
  unlink : σ → N → Option (List StrChar → σ → ℤ × σ)
  keyboardGetChar : σ → BitVec 8 × σ
  kprintf : List (BitVec 8) → σ → σ
  taskExit : σ → σ

/-- The registers of `struct regs` that `syscall_handler` uses: `eax`, `ebx`, `ecx` and `edx`, or
`rax`, `rdi`, `rsi` and `rdx`. -/
structure Regs (w : ℕ) where
  number : BitVec w
  arg1 : BitVec w
  arg2 : BitVec w
  arg3 : BitVec w

/-- What a call changes: the state of `vfs.c`, memory, and the rest of the kernel. -/
structure Machine (N σ : Type*) where
  vfs : Vfs N
  mem : Bytes
  world : σ

variable {N σ : Type*} (K : Kernel N σ)

/-- `vfs_mkdir` -/
def vfsMkdir (v : Vfs N) (path : List StrChar) (permission : BitVec 16) (s : σ) : ℤ × σ :=
  match v.rootNode with
  | none => (-1, s)
  | some parent =>
      match K.mkdir s parent with
      | none => (-1, s)
      | some mkdir => mkdir path permission s

/-- `vfs_link` -/
def vfsLink (v : Vfs N) (oldpath : Option (List StrChar)) (newpath : List StrChar) (s : σ) :
    Except Fault (ℤ × σ) :=
  match vfsResolvePath K.toDriver v oldpath s with
  | .error e => .error e
  | .ok (none, s) => .ok (-1, s)
  | .ok (some oldNode, s) =>
      match K.link s oldNode with
      | none => .ok (-1, s)
      | some link => .ok (link oldNode newpath s)

/-- `vfs_unlink` -/
def vfsUnlink (v : Vfs N) (path : Option (List StrChar)) (s : σ) : Except Fault (ℤ × σ) :=
  match vfsResolvePath K.toDriver v path s with
  | .error e => .error e
  | .ok (none, s) => .ok (-1, s)
  | .ok (some node, s) =>
      match K.unlink s node with
      | none => .ok (-1, s)
      | some unlink => .ok (unlink (path.getD []) s)

/-! ### The system calls -/

/-- The loop of `sys_write`, with `n` characters left at `buf`. -/
def writeLoop (mem : Bytes) : ℕ → ℕ → σ → σ
  | 0, _, s => s
  | n + 1, buf, s =>
      writeLoop mem n (buf + 1) (K.kprintf (if mem buf = 0 then [] else [mem buf]) s)

def sysWrite (fd : BitVec 32) (buf len : ℕ) (mem : Bytes) (s : σ) : ℤ × σ :=
  if fd = 1 ∨ fd = 2 then (len, writeLoop K mem len buf s) else (-1, s)

/-- The loop of `sys_read`, with `fuel` turns. -/
def readLoop (buf len : ℕ) : ℕ → ℕ → Bytes → σ → Option (ℕ × Bytes × σ)
  | 0, _, _, _ => none
  | fuel + 1, written, mem, s =>
      if written < len then
        let (c, s) := K.keyboardGetChar s
        if c = 0x08 then
          if 0 < written then
            readLoop buf len fuel (written - 1) mem (K.kprintf [0x08, 0x20, 0x08] s)
          else readLoop buf len fuel written mem s
        else if c = 0x0A ∨ c = 0x0D then
          some (written + 1, Function.update mem (buf + written) 0x0A, K.kprintf [0x0A] s)
        else
          readLoop buf len fuel (written + 1) (Function.update mem (buf + written) c)
            (K.kprintf (if c = 0 then [] else [c]) s)
      else some (written, mem, s)

def sysRead (fuel : ℕ) (fd : BitVec 32) (buf len : ℕ) (mem : Bytes) (s : σ) :
    Option (ℤ × Bytes × σ) :=
  if fd ≠ 0 then some (0, mem, s)
  else
    (readLoop K buf len fuel 0 mem s).map fun (written, mem, s) => ((written : ℤ), mem, s)

/-- A path argument, which `vfs_resolve_path` compares with `NULL`. -/
def pathArg (mem : Bytes) (fuel a : ℕ) : Option (Option (List StrChar)) :=
  if a = 0 then some none else (cString mem fuel a).map some

def sysOpen (v : Vfs N) (path : Option (List StrChar)) (s : σ) : Except Fault (ℤ × σ) :=
  match vfsResolvePath K.toDriver v path s with
  | .error e => .error e
  | .ok (none, s) => .ok (-1, s)
  | .ok (some _, s) => .ok (3, s)

def sysClose : ℤ := 0

def sysMount (v : Vfs N) (dir : List StrChar) (data : Option N) : Except Fault (ℤ × Vfs N) :=
  vfsMount v dir data

def sysUmount (v : Vfs N) (special : List StrChar) : ℤ × Vfs N := vfsUmount v special

def sysMkdir (v : Vfs N) (pathname : List StrChar) (mode : BitVec 32) (s : σ) : ℤ × σ :=
  vfsMkdir K v pathname (mode.setWidth 16) s

def sysLink (v : Vfs N) (oldpath : Option (List StrChar)) (newpath : List StrChar) (s : σ) :
    Except Fault (ℤ × σ) :=
  vfsLink K v oldpath newpath s

def sysUnlink (v : Vfs N) (pathname : Option (List StrChar)) (s : σ) : Except Fault (ℤ × σ) :=
  vfsUnlink K v pathname s

/-- `regs->rax = ret` -/
def Regs.setRet {w : ℕ} (regs : Regs w) (ret : ℤ) : Regs w :=
  { regs with number := BitVec.ofInt w ret }

/-- A call that returned, and what it made of the rest of the kernel. -/
def Machine.ret {w : ℕ} (m : Machine N σ) (regs : Regs w) (r : ℤ × σ) :
    Regs w × Machine N σ :=
  (regs.setRet r.1, { m with world := r.2 })

/-- `syscall_handler` -/
def syscallHandler (t : Target) (fuel : ℕ) (regs : Regs t.ptrBits) (m : Machine N σ) :
    Option (Regs t.ptrBits × Machine N σ) :=
  match regs.number.toNat with
  | 1 => some (regs, { m with world := K.taskExit m.world })
  | 3 =>
      (sysRead K fuel (regs.arg1.setWidth 32) regs.arg2.toNat regs.arg3.toNat m.mem m.world).map
        fun (ret, mem, world) => (regs.setRet ret, { m with mem := mem, world := world })
  | 4 =>
      some (m.ret regs
        (sysWrite K (regs.arg1.setWidth 32) regs.arg2.toNat regs.arg3.toNat m.mem m.world))
  | 5 =>
      (pathArg m.mem fuel regs.arg1.toNat).bind fun path =>
        (sysOpen K m.vfs path m.world).toOption.map (m.ret regs)
  | 6 => some (m.ret regs (sysClose, m.world))
  | 9 =>
      (pathArg m.mem fuel regs.arg1.toNat).bind fun oldpath =>
        (cString m.mem fuel regs.arg2.toNat).bind fun newpath =>
          (sysLink K m.vfs oldpath newpath m.world).toOption.map (m.ret regs)
  | 10 =>
      (pathArg m.mem fuel regs.arg1.toNat).bind fun pathname =>
        (sysUnlink K m.vfs pathname m.world).toOption.map (m.ret regs)
  | 21 =>
      (cString m.mem fuel regs.arg2.toNat).bind fun dir =>
        -- `data` is `NULL`, whatever is in the registers
        (sysMount m.vfs dir none).toOption.map fun (ret, vfs) =>
          (regs.setRet ret, { m with vfs := vfs })
  | 22 =>
      (cString m.mem fuel regs.arg1.toNat).map fun special =>
        let (ret, vfs) := sysUmount m.vfs special
        (regs.setRet ret, { m with vfs := vfs })
  | 39 =>
      (cString m.mem fuel regs.arg1.toNat).map fun pathname =>
        m.ret regs (sysMkdir K m.vfs pathname (regs.arg2.setWidth 32) m.world)
  | 141 =>
      (sysGetdents t K.toDirDriver fuel m.vfs (regs.arg1.setWidth 32) regs.arg2.toNat
        (regs.arg3.setWidth 32) m.mem m.world).map
          fun (ret, mem, world) => (regs.setRet ret, { m with mem := mem, world := world })
  | _ => some (m.ret regs (-1, m.world))

/-! ### What a call does to the mount table and to memory -/

/-- The addresses the kernel may store at for the user. -/
def UserBuffer {t : Target} (regs : Regs t.ptrBits) (a : ℕ) : Prop :=
  regs.arg2.toNat ≤ a ∧
    ((regs.number.toNat = 3 ∧ regs.arg1.setWidth 32 = 0 ∧
        a < regs.arg2.toNat + regs.arg3.toNat) ∨
      (regs.number.toNat = 141 ∧
        a < regs.arg2.toNat + getdentsSpan (regs.arg3.setWidth 32).toNat))

/-- A call changes the mount table if it is one to `sys_mount` or `sys_umount`, and memory at most
in the buffer of one to `sys_read` or `sys_getdents`. -/
inductive HandlerEffect {t : Target} (regs : Regs t.ptrBits) (m m' : Machine N σ) : Prop where
  | mount {dir : List StrChar} {ret : ℤ} (hnumber : regs.number.toNat = 21)
      (hmem : m'.mem = m.mem) (hvfs : vfsMount m.vfs dir none = .ok (ret, m'.vfs))
  | umount {special : List StrChar} {ret : ℤ} (hnumber : regs.number.toNat = 22)
      (hmem : m'.mem = m.mem) (hvfs : vfsUmount m.vfs special = (ret, m'.vfs))
  | other (hnumber : regs.number.toNat ≠ 21)
      (hmem : ∀ a, ¬ UserBuffer regs a → m'.mem a = m.mem a) (hvfs : m'.vfs = m.vfs)

variable {K}

theorem readLoop_outside {buf len a : ℕ} (ha : ¬ (buf ≤ a ∧ a < buf + len)) {fuel written : ℕ}
    {mem : Bytes} {s : σ} {r : ℕ × Bytes × σ} (h : readLoop K buf len fuel written mem s = some r) :
    r.2.1 a = mem a := by
  induction fuel generalizing written mem s with
  | zero => cases h
  | succ fuel ih =>
      rw [readLoop] at h
      split at h
      · rename_i hlt
        have hoff : a ≠ buf + written := by omega
        dsimp only at h
        split at h
        · split at h
          · exact ih h
          · exact ih h
        · split at h
          · cases h
            exact Function.update_of_ne hoff _ _
          · exact (ih h).trans (Function.update_of_ne hoff _ _)
      · cases h
        rfl

theorem sysRead_outside {fuel : ℕ} {fd : BitVec 32} {buf len a : ℕ}
    (ha : ¬ (fd = 0 ∧ buf ≤ a ∧ a < buf + len)) {mem : Bytes} {s : σ} {r : ℤ × Bytes × σ}
    (h : sysRead K fuel fd buf len mem s = some r) : r.2.1 a = mem a := by
  rw [sysRead] at h
  split at h
  · cases h
    rfl
  · rename_i hfd
    obtain ⟨r', hloop, rfl⟩ := Option.map_eq_some_iff.mp h
    exact readLoop_outside (fun hin => ha ⟨not_not.mp hfd, hin⟩) hloop

/-- A call that only returns something. -/
theorem HandlerEffect.of_ret {t : Target} {regs : Regs t.ptrBits} {m : Machine N σ}
    (hnumber : regs.number.toNat ≠ 21) (r : ℤ × σ) :
    HandlerEffect regs m (m.ret regs r).2 :=
  .other hnumber (fun _ _ => rfl) rfl

theorem syscallHandler_effect {t : Target} {fuel : ℕ} {regs : Regs t.ptrBits} {m : Machine N σ}
    {r : Regs t.ptrBits × Machine N σ} (h : syscallHandler K t fuel regs m = some r) :
    HandlerEffect regs m r.2 := by
  rw [syscallHandler] at h
  split at h
  case h_1 hnumber =>
      cases h
      exact .other (by omega) (fun _ _ => rfl) rfl
  case h_2 hnumber =>
      obtain ⟨r', hread, rfl⟩ := Option.map_eq_some_iff.mp h
      refine .other (by omega) (fun a ha => sysRead_outside (fun hin => ha ?_) hread) rfl
      exact ⟨hin.2.1, .inl ⟨hnumber, hin.1, hin.2.2⟩⟩
  case h_3 hnumber | h_5 hnumber =>
      cases h
      exact .of_ret (by omega) _
  case h_4 hnumber | h_7 hnumber =>
      obtain ⟨path, -, h⟩ := Option.bind_eq_some_iff.mp h
      obtain ⟨r', -, rfl⟩ := Option.map_eq_some_iff.mp h
      exact .of_ret (by omega) r'
  case h_6 hnumber =>
      obtain ⟨oldpath, -, h⟩ := Option.bind_eq_some_iff.mp h
      obtain ⟨newpath, -, h⟩ := Option.bind_eq_some_iff.mp h
      obtain ⟨r', -, rfl⟩ := Option.map_eq_some_iff.mp h
      exact .of_ret (by omega) r'
  case h_8 hnumber =>
      obtain ⟨dir, -, h⟩ := Option.bind_eq_some_iff.mp h
      obtain ⟨r', hmount, rfl⟩ := Option.map_eq_some_iff.mp h
      rw [sysMount] at hmount
      cases hret : vfsMount m.vfs dir none with
      | error e => rw [hret] at hmount; cases hmount
      | ok r'' =>
          rw [hret] at hmount
          cases hmount
          exact .mount hnumber rfl hret
  case h_9 hnumber =>
      obtain ⟨special, -, rfl⟩ := Option.map_eq_some_iff.mp h
      exact .umount hnumber rfl rfl
  case h_10 hnumber =>
      obtain ⟨pathname, -, rfl⟩ := Option.map_eq_some_iff.mp h
      exact .of_ret (by omega) _
  case h_11 hnumber =>
      obtain ⟨r', hcall, rfl⟩ := Option.map_eq_some_iff.mp h
      refine .other (by omega) (fun a ha => sysGetdents_outside ?_ hcall) rfl
      by_contra hin
      exact ha ⟨by omega, .inr ⟨hnumber, by omega⟩⟩
  case h_12 hnumber =>
      cases h
      exact .of_ret (fun e => by simp [e] at *) _

/-! ### Runs of system calls -/

/-- A system call of the user: the registers, and what memory and the rest of the kernel are by
then. -/
structure SysCall (t : Target) (σ : Type*) where
  regs : Regs t.ptrBits
  mem : Bytes
  world : σ

/-- No byte the kernel may store for the user is one of its own.  Addresses wrap. -/
def OffKernel {t : Target} (kernel : BitVec t.ptrBits → Prop) (regs : Regs t.ptrBits) : Prop :=
  ∀ a, UserBuffer regs a → ¬ kernel (BitVec.ofNat _ a)

/-- A call, where `kernel` are the addresses of the kernel's own memory: its code, its static
variables and stacks, the nodes and the data of the drivers.  Were a byte of it changed, the state
after could be any. -/
def SyscallStep (K : Kernel N σ) (t : Target) (kernel : BitVec t.ptrBits → Prop) (v : Vfs N)
    (call : SysCall t σ) (v' : Vfs N) : Prop :=
  ∃ regs' m', Returns (fun fuel => syscallHandler K t fuel call.regs ⟨v, call.mem, call.world⟩)
    (regs', m') ∧ ((∀ a, kernel (BitVec.ofNat _ a) → m'.mem a = call.mem a) → v' = m'.vfs)

/-- The root and every mount point have their nodes: `/` resolves, and `sys_getdents` does not
fail. -/
structure RootAlive (K : Kernel N σ) (v : Vfs N) : Prop where
  root : v.rootNode ≠ none
  nodes : ∀ m ∈ v.mounts, m.node ≠ none
  resolves : ∀ s, ∃ n, vfsResolvePath K.toDriver v (some [slash]) s = .ok (some n, s)
  lists : ∀ t fuel fd dirp count mem s r,
    sysGetdents t K.toDirDriver fuel v fd dirp count mem s = some r → r.1 ≠ -1

theorem rootAlive_iff {v : Vfs N} :
    RootAlive K v ↔ v.rootNode ≠ none ∧ ∀ m ∈ v.mounts, m.node ≠ none := by
  refine ⟨fun h => ⟨h.root, h.nodes⟩, fun ⟨hroot, hnodes⟩ => ⟨hroot, hnodes, ?_, ?_⟩⟩
  · intro s
    obtain ⟨n, hn⟩ := Option.ne_none_iff_exists'.mp hroot
    refine ⟨n, ?_⟩
    rw [vfsResolvePath, hn]
    rfl
  · intro t fuel fd dirp count mem s r hr
    obtain ⟨n, hn⟩ := Option.ne_none_iff_exists'.mp hroot
    exact sysGetdents_ne hn hr

/-- The state `kmain` leaves: `vfs_init()` and `vfs_mount("/", tar_root)`. -/
def kmainVfs (tarRoot : N) : Vfs N := ⟨some tarRoot, [⟨[slash], some tarRoot⟩]⟩

theorem kmainVfs_eq (tarRoot : N) :
    vfsMount vfsInit [slash] (some tarRoot) = .ok (0, kmainVfs tarRoot) := rfl

/-- The root is alive, and there is room in the table. -/
def AliveWithRoom (v : Vfs N) : Prop :=
  (v.rootNode ≠ none ∧ ∀ m ∈ v.mounts, m.node ≠ none) ∧ v.mounts.length < maxMounts

/-- An unmount takes mount points away, and leaves the root. -/
theorem AliveWithRoom.umount {v v' : Vfs N} {special : List StrChar} {ret : ℤ}
    (hv : AliveWithRoom v) (h : VfsEffect v (.umount special ret) v') : AliveWithRoom v' := by
  cases h with
  | @umount root path before after m hm hbefore =>
      obtain ⟨⟨hroot, hnodes⟩, hlen⟩ := hv
      refine ⟨⟨hroot, fun x hx => hnodes x ?_⟩, ?_⟩
      · rcases List.mem_append.mp hx with hx | hx
        · exact List.mem_append_left _ hx
        · exact List.mem_append_right _ (List.mem_cons_of_mem _ hx)
      · rw [List.length_append, List.length_cons] at hlen
        rw [List.length_append]
        omega
  | umountMissing => exact hv

/-- Mounting `NULL` leaves a mount point without a node, if there is room for it. -/
theorem AliveWithRoom.mount_null {v v' : Vfs N} {dir : List StrChar} {ret : ℤ}
    (hv : AliveWithRoom v) (h : VfsEffect v (.mount dir none ret) v') :
    ∃ m ∈ v'.mounts, m.node = none := by
  cases h with
  | mountRoot => exact ⟨_, List.mem_cons_self, rfl⟩
  | mount => exact ⟨_, List.mem_append_right _ List.mem_cons_self, rfl⟩
  | mountFull _ hpath hfull => exact absurd hv.2 (Nat.not_lt.mpr hfull)

theorem syscallStep_effect {t : Target} {kernel : BitVec t.ptrBits → Prop} {v v' : Vfs N}
    {call : SysCall t σ} (hoff : OffKernel kernel call.regs)
    (h : SyscallStep K t kernel v call v') :
    ∃ m' : Machine N σ, HandlerEffect call.regs ⟨v, call.mem, call.world⟩ m' ∧ v' = m'.vfs := by
  obtain ⟨regs', m', ⟨enough, hret⟩, hv'⟩ := h
  have heff := syscallHandler_effect (hret enough (Nat.le_refl _))
  refine ⟨m', heff, hv' fun a ha => ?_⟩
  cases heff with
  | mount hnumber hmem hvfs | umount hnumber hmem hvfs => exact congrFun hmem a
  | other hnumber hmem hvfs => exact hmem a fun hin => hoff a hin ha

/-- A call off the kernel's memory leaves the root alive exactly if its number is not 21. -/
theorem rootAlive_step {t : Target} {kernel : BitVec t.ptrBits → Prop} {v v' : Vfs N}
    {call : SysCall t σ} (hv : AliveWithRoom v) (hoff : OffKernel kernel call.regs)
    (h : SyscallStep K t kernel v call v') :
    (RootAlive K v' ↔ call.regs.number.toNat ≠ 21) ∧
      (call.regs.number.toNat ≠ 21 → AliveWithRoom v') := by
  obtain ⟨m', heff, rfl⟩ := syscallStep_effect hoff h
  rw [rootAlive_iff]
  cases heff with
  | mount hnumber hmem hvfs =>
      obtain ⟨m, hm, hnode⟩ := hv.mount_null (VfsStep.effect hvfs)
      exact ⟨iff_of_false (fun hsafe => hsafe.2 m hm hnode) (not_not_intro hnumber),
        fun hne => absurd hnumber hne⟩
  | umount hnumber hmem hvfs =>
      have hv' := hv.umount (VfsStep.effect hvfs)
      exact ⟨iff_of_true hv'.1 (by omega), fun _ => hv'⟩
  | other hnumber hmem hvfs =>
      rw [hvfs]
      exact ⟨iff_of_true hv.1 hnumber, fun _ => hv⟩

theorem aliveWithRoom_kmainVfs (tarRoot : N) : AliveWithRoom (kmainVfs tarRoot) := by
  have hroom : 1 < maxMounts := by decide
  refine ⟨⟨Option.some_ne_none _, fun m hm => ?_⟩, hroom⟩
  obtain rfl := List.mem_singleton.mp hm
  exact Option.some_ne_none _

/-- **The root and system calls.**  From the state `kmain` leaves, the root and every mount point
keep their nodes along a run of system calls none of which is number 21 or has its buffer in the
kernel's memory.  Where no buffer is there, each call 21 takes a node away. -/
theorem root_alive_off_kernel (K : Kernel N σ) (t : Target) (kernel : BitVec t.ptrBits → Prop)
    (tarRoot : N) (calls : List (SysCall t σ)) :
    (Along (SyscallStep K t kernel)
        (fun _ call _ => call.regs.number.toNat ≠ 21 ∧ OffKernel kernel call.regs)
        (kmainVfs tarRoot) calls →
      Along (SyscallStep K t kernel) (fun _ _ v' => RootAlive K v') (kmainVfs tarRoot) calls) ∧
    (Along (SyscallStep K t kernel) (fun _ call _ => OffKernel kernel call.regs)
        (kmainVfs tarRoot) calls →
      Along (SyscallStep K t kernel) (fun _ _ v' => RootAlive K v') (kmainVfs tarRoot) calls →
      Along (SyscallStep K t kernel) (fun _ call _ => call.regs.number.toNat ≠ 21)
        (kmainVfs tarRoot) calls) := by
  refine ⟨Along.of_inv (I := AliveWithRoom) ?_ (aliveWithRoom_kmainVfs tarRoot),
    fun hoff halive => ?_⟩
  · intro v call v' hv hcall h
    obtain ⟨halive, hv'⟩ := rootAlive_step hv hcall.2 h
    exact ⟨halive.mpr hcall.1, hv' hcall.1⟩
  · refine Along.of_inv (I := AliveWithRoom) ?_ (aliveWithRoom_kmainVfs tarRoot)
      (hoff.and halive)
    intro v call v' hv hcall h
    obtain ⟨halive, hv'⟩ := rootAlive_step hv hcall.1 h
    exact ⟨halive.mp hcall.2, hv' (halive.mp hcall.2)⟩

/-- A kernel whose root directory is empty. -/
def emptyKernel : Kernel Unit Unit where
  flags := fun _ _ => 2
  finddir := fun _ _ => none
  readdir := fun _ _ => none
  mkdir := fun _ _ => none
  link := fun _ _ => none
  unlink := fun _ _ => none
  keyboardGetChar := fun _ => (0x0A, ())
  kprintf := fun _ s => s
  taskExit := fun s => s

/-- The user mounts at `/`, and the root is `NULL`. -/
theorem sys_mount_clears_root :
    ¬ ∀ (t : Target) (K : Kernel Unit Unit) (calls : List (SysCall t Unit)),
      Along (SyscallStep K t fun _ => False) (fun _ _ v' => RootAlive K v') (kmainVfs ())
        calls := by
  intro hall
  let mem : Bytes := fun a => if a = 0x800000 then 0x2F else 0
  let call : SysCall .i386 Unit := ⟨⟨21, 0, 0x800000, 0⟩, mem, ()⟩
  have hstep : SyscallStep emptyKernel .i386 (fun _ => False) (kmainVfs ()) call
      ⟨none, [⟨[slash], none⟩]⟩ := by
    refine ⟨⟨0, 0, 0x800000, 0⟩, ⟨⟨none, [⟨[slash], none⟩]⟩, mem, ()⟩,
      ⟨2, fun fuel hfuel => ?_⟩, fun _ => rfl⟩
    have hholds : Holds mem 0x800000 ([slash].map (·.1) ++ [0]) :=
      holds_cons.mpr ⟨rfl, holds_cons.mpr ⟨rfl, holds_nil⟩⟩
    have hdir : cString mem fuel 0x800000 = some [slash] := cString_of_holds hholds hfuel
    change (cString mem fuel 0x800000).bind _ = _
    rw [hdir]
    rfl
  exact (hall .i386 emptyKernel [call] _ hstep).1.root rfl

end ZeptoOS.Syscall
