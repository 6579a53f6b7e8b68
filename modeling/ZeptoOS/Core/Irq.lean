import ZeptoOS.Lib.Stack

/-!
# Core — Irq

`irq0_stub` of `kernel/x64/irq.s` and `kernel/i386/irq.s`, as the registers it pushes and pops,
with what the processor pushes before it and pops after it.  `Arch` is what the two targets differ
in; `x64` and `i386` are the targets.

`enter` runs the pushes of an interrupt taken in user mode, and `leave` the pops of a return to
it: `leave_enter` says that the return undoes the interrupt, `leave_congr` that it reads the frame
only, and `leave_update` what a store to the frame does.
-/

namespace ZeptoOS.Core
open Lib

/-- What a target decides about interrupts and stacks: `R` are the general registers but the stack
pointer, and words have `w` bits. -/
structure Arch (R : Type) (w : ℕ) where
  wordBytes : ℕ
  /-- What the stub pushes, in order; `none` is the stack pointer, which `pusha` pushes too. -/
  pushes : List (Option R)
  /-- What the stub pops into, in order; `none` is the word that `popa` skips. -/
  pops : List (Option R)
  /-- How many zeros `task_create_user` puts where the stub pops registers from. -/
  zeros : ℕ
  /-- What the processor aligns the stack pointer to when it enters from user mode. -/
  align : ℕ
  wordBytes_pos : 0 < wordBytes
  pops_eq : pops = pushes.reverse
  zeros_eq : zeros = pushes.length
  saves : ∀ r, some r ∈ pushes
  fits : wordBytes * (5 + zeros) ≤ 4096
  align_dvd : align ∣ 16

/-- The general registers of x86_64 but `rsp`. -/
inductive Reg64 where
  | rax | rbx | rcx | rdx | rbp | rsi | rdi | r8 | r9 | r10 | r11 | r12 | r13 | r14 | r15
deriving DecidableEq

/-- The general registers of i386 but `esp`. -/
inductive Reg32 where
  | eax | ecx | edx | ebx | ebp | esi | edi
deriving DecidableEq

/-- `kernel/x64/irq.s`; the processor aligns the stack to 16 bytes. -/
def x64 : Arch Reg64 64 where
  wordBytes := 8
  pushes := [.rax, .rbx, .rcx, .rdx, .rbp, .rsi, .rdi, .r8, .r9, .r10, .r11, .r12, .r13, .r14,
    .r15].map some
  pops := [.r15, .r14, .r13, .r12, .r11, .r10, .r9, .r8, .rdi, .rsi, .rbp, .rdx, .rcx, .rbx,
    .rax].map some
  zeros := 15
  align := 16
  wordBytes_pos := by decide
  pops_eq := by decide
  zeros_eq := by decide
  saves r := by cases r <;> decide
  fits := by decide
  align_dvd := by decide

/-- `kernel/i386/irq.s`: `pusha` and `popa`. -/
def i386 : Arch Reg32 32 where
  wordBytes := 4
  pushes := [some .eax, some .ecx, some .edx, some .ebx, none, some .ebp, some .esi, some .edi]
  pops := [some .edi, some .esi, some .ebp, none, some .ebx, some .edx, some .ecx, some .eax]
  zeros := 8
  align := 1
  wordBytes_pos := by decide
  pops_eq := by decide
  zeros_eq := by decide
  saves r := by cases r <;> decide
  fits := by decide
  align_dvd := by decide

/-- What a program in user mode has in the processor, of what an interrupt or its stub saves.  The
selectors of the data segments are left out, which neither stub saves (on i386 they matter: see
`I386/Segments`), and so are the floating-point registers. -/
@[ext]
structure Context (R : Type) (w : ℕ) where
  regs : R → BitVec w
  ip : BitVec w
  flags : BitVec w
  sp : BitVec w
  cs : BitVec w
  ss : BitVec w

section Arch

variable {R : Type} [DecidableEq R] {w : ℕ} (A : Arch R w)

/-- The words of a frame. -/
def Arch.frameWords : ℕ := 5 + A.zeros

/-- The bytes of a frame. -/
def Arch.frameBytes : ℕ := A.wordBytes * A.frameWords

/-- What the processor pushes when it enters from user mode. -/
def Context.hardwareFrame (c : Context R w) : List (BitVec w) := [c.ss, c.sp, c.flags, c.cs, c.ip]

/-- The value of a push of the stub, with the stack pointer it began with. -/
def Context.pushed (c : Context R w) (sp : ℕ) : Option R → BitVec w
  | some r => c.regs r
  | none => BitVec.ofNat w sp

/-- An interrupt in the context `c`, with the stack of the TSS: the processor's pushes and the
stub's. -/
def enter (c : Context R w) (s : Stack (BitVec w)) : Stack (BitVec w) :=
  let s := Stack.pushAll A.wordBytes ⟨s.mem, s.sp - s.sp % A.align⟩ c.hardwareFrame
  Stack.pushAll A.wordBytes s (A.pushes.map (c.pushed s.sp))

/-- The registers after pops of the words `ws` into `pops`. -/
def popRegs : List (Option R) → List (BitVec w) → (R → BitVec w) → R → BitVec w
  | some r :: ps, v :: ws, regs => popRegs ps ws (Function.update regs r v)
  | none :: ps, _ :: ws, regs => popRegs ps ws regs
  | _, _, regs => regs

/-- The stub's pops and the processor's, from `sp`; `regs` are the registers before. -/
def leave (mem : ℕ → BitVec w) (sp : ℕ) (regs : R → BitVec w) : Context R w :=
  let n := A.wordBytes
  let iret := sp + n * A.pops.length
  { regs := popRegs A.pops (Stack.words n mem sp A.pops.length) regs
    ip := mem iret
    cs := mem (iret + n)
    flags := mem (iret + n * 2)
    sp := mem (iret + n * 3)
    ss := mem (iret + n * 4) }

variable {A}

theorem popRegs_map (val : Option R → BitVec w) {ps : List (Option R)} {regs : R → BitVec w}
    (r : R) :
    popRegs ps (ps.map val) regs r = if some r ∈ ps then val (some r) else regs r := by
  induction ps generalizing regs with
  | nil => rfl
  | cons p ps ih =>
      cases p with
      | none => simp [popRegs, ih]
      | some q =>
          rw [List.map_cons, popRegs, ih]
          by_cases hr : some r ∈ ps
          · rw [if_pos hr, if_pos (List.mem_cons_of_mem _ hr)]
          · rw [if_neg hr]
            by_cases e : r = q
            · subst e
              rw [if_pos List.mem_cons_self, Function.update_self]
            · rw [if_neg (by simp [e, hr]), Function.update_of_ne e]

/-- A register is popped from the word at its place among the pops. -/
theorem popRegs_idxOf {ps : List (Option R)} {ws : List (BitVec w)} {regs : R → BitVec w} {r : R}
    (hnodup : ps.Nodup) (hlen : ws.length = ps.length) (hr : some r ∈ ps) :
    ws[ps.idxOf (some r)]? = some (popRegs ps ws regs r) := by
  -- a register that is not popped any more stays
  have hstay : ∀ {ps : List (Option R)} {ws : List (BitVec w)} {regs : R → BitVec w},
      some r ∉ ps → popRegs ps ws regs r = regs r := by
    intro ps
    induction ps with
    | nil => exact fun _ => rfl
    | cons p ps ih =>
        intro ws regs hps
        rw [List.mem_cons, not_or] at hps
        cases ws with
        | nil => cases p <;> rfl
        | cons v ws =>
            cases p with
            | none => exact ih hps.2
            | some q =>
                rw [popRegs, ih hps.2, Function.update_of_ne fun e => hps.1 (congrArg some e)]
  induction ps generalizing ws regs with
  | nil => cases hr
  | cons p ps ih =>
      obtain ⟨v, ws, rfl⟩ := List.exists_cons_of_length_eq_add_one hlen
      obtain ⟨hp, hps⟩ := List.nodup_cons.mp hnodup
      by_cases e : p = some r
      · subst e
        rw [List.idxOf_cons_self, popRegs, hstay hp, Function.update_self]
        rfl
      · have hmem := (List.mem_cons.mp hr).resolve_left (Ne.symm e)
        rw [List.idxOf_cons_ne _ e, List.getElem?_cons_succ]
        cases p with
        | none => exact ih hps (Nat.succ.inj hlen) hmem
        | some q => exact ih hps (Nat.succ.inj hlen) hmem

/-- **A return pops what was pushed**, whatever put the frame there. -/
theorem leave_pushAll {s : Stack (BitVec w)} {ss usp flags cs ip : BitVec w}
    (val : Option R → BitVec w) (hfit : A.frameBytes ≤ s.sp) (regs : R → BitVec w) :
    let s' := Stack.pushAll A.wordBytes s ([ss, usp, flags, cs, ip] ++ A.pushes.map val)
    leave A s'.mem s'.sp regs = ⟨fun r => val (some r), ip, flags, usp, cs, ss⟩ := by
  intro s'
  have hlen : ([ss, usp, flags, cs, ip] ++ A.pushes.map val).length = A.pops.length + 5 := by
    rw [List.length_append, List.length_map, A.pops_eq, List.length_reverse]
    exact Nat.add_comm _ _
  have hfit' : A.wordBytes * ([ss, usp, flags, cs, ip] ++ A.pushes.map val).length ≤ s.sp := by
    rw [hlen, A.pops_eq, List.length_reverse, ← A.zeros_eq, Nat.add_comm]
    exact hfit
  have hwords := Stack.words_pushAll A.wordBytes_pos hfit'
  rw [hlen, List.reverse_append, Stack.words_add] at hwords
  obtain ⟨hregs, hiret⟩ := List.append_inj hwords (by simp [A.pops_eq])
  have hmap : (A.pushes.map val).reverse = A.pops.map val := by
    rw [A.pops_eq, List.map_reverse]
  simp only [Stack.words, List.nil_append, List.cons_append, List.reverse_cons, List.reverse_nil,
    List.cons.injEq, and_true, Nat.mul_zero, Nat.add_zero, Nat.mul_one] at hiret
  obtain ⟨hip, hcs, hflags, hsp, hss⟩ := hiret
  rw [hmap] at hregs
  refine Context.ext (funext fun r => ?_) hip hflags hsp hcs hss
  simp only [leave, hregs, s', popRegs_map]
  exact if_pos (by rw [A.pops_eq, List.mem_reverse]; exact A.saves r)

section Enter

variable {c : Context R w} {s : Stack (BitVec w)}

omit [DecidableEq R] in
/-- An interrupt pushes one frame. -/
theorem enter_eq (hal : s.sp % A.align = 0) : ∃ val : Option R → BitVec w,
    (∀ r, val (some r) = c.regs r) ∧
    enter A c s = Stack.pushAll A.wordBytes s (c.hardwareFrame ++ A.pushes.map val) := by
  refine ⟨c.pushed (Stack.pushAll A.wordBytes s c.hardwareFrame).sp, fun _ => rfl, ?_⟩
  rw [Stack.pushAll_append, enter, hal]
  rfl

omit [DecidableEq R] in
theorem length_frame (val : Option R → BitVec w) :
    A.wordBytes * (c.hardwareFrame ++ A.pushes.map val).length = A.frameBytes := by
  rw [List.length_append, List.length_map, ← A.zeros_eq]
  rfl

omit [DecidableEq R] in
theorem enter_sp (hal : s.sp % A.align = 0) : (enter A c s).sp = s.sp - A.frameBytes := by
  obtain ⟨val, -, e⟩ := enter_eq (c := c) hal
  rw [e, Stack.pushAll_sp, length_frame]

omit [DecidableEq R] in
/-- An interrupt changes only the frame it pushes. -/
theorem enter_other (hal : s.sp % A.align = 0) (hfit : A.frameBytes ≤ s.sp) {a : ℕ}
    (h : a < s.sp - A.frameBytes ∨ s.sp ≤ a) : (enter A c s).mem a = s.mem a := by
  obtain ⟨val, -, e⟩ := enter_eq (c := c) hal
  rw [e, Stack.pushAll_other (by rw [length_frame]; exact h) A.wordBytes_pos
    (by rw [length_frame]; exact hfit)]

/-- **A return undoes the interrupt.** -/
theorem leave_enter (hal : s.sp % A.align = 0) (hfit : A.frameBytes ≤ s.sp)
    (regs : R → BitVec w) : leave A (enter A c s).mem (enter A c s).sp regs = c := by
  obtain ⟨val, hval, e⟩ := enter_eq (c := c) hal
  rw [e, Context.hardwareFrame, leave_pushAll val hfit]
  exact Context.ext (funext hval) rfl rfl rfl rfl rfl

end Enter

/-- A return reads the frame only. -/
theorem leave_congr {mem mem' : ℕ → BitVec w} {sp : ℕ}
    (h : ∀ a, sp ≤ a → a < sp + A.frameBytes → mem' a = mem a) (regs : R → BitVec w) :
    leave A mem' sp regs = leave A mem sp regs := by
  have hn := A.wordBytes_pos
  have hbytes : A.frameBytes = A.wordBytes * A.pops.length + A.wordBytes * 5 := by
    rw [Arch.frameBytes, Arch.frameWords, A.zeros_eq, A.pops_eq, List.length_reverse,
      Nat.add_comm 5, Nat.mul_add]
  rw [hbytes] at h
  simp only [leave]
  rw [Stack.words_congr hn fun a h₁ h₂ => h a h₁ (by omega), h _ (by omega) (by omega),
    h _ (by omega) (by omega), h _ (by omega) (by omega), h _ (by omega) (by omega),
    h _ (by omega) (by omega)]

/-! ### A register in its frame -/

/-- Where the stub pops a register from. -/
def Arch.slot (A : Arch R w) (sp : ℕ) (r : R) : ℕ :=
  sp + A.wordBytes * A.pops.idxOf (some r)

omit [DecidableEq R] in
theorem Arch.mem_pops (A : Arch R w) (r : R) : some r ∈ A.pops := by
  rw [A.pops_eq, List.mem_reverse]
  exact A.saves r

theorem Arch.idxOf_lt (A : Arch R w) (r : R) : A.pops.idxOf (some r) < A.pops.length :=
  List.idxOf_lt_length_of_mem (A.mem_pops r)

theorem leave_regs {mem : ℕ → BitVec w} {sp : ℕ} {regs : R → BitVec w} (hnodup : A.pops.Nodup)
    (r : R) : (leave A mem sp regs).regs r = mem (A.slot sp r) := by
  have hpop : (Stack.words A.wordBytes mem sp A.pops.length)[A.pops.idxOf (some r)]? =
      some ((leave A mem sp regs).regs r) :=
    popRegs_idxOf hnodup (Stack.length_words mem sp A.pops.length) (A.mem_pops r)
  rw [Stack.getElem?_words mem sp (A.idxOf_lt r)] at hpop
  exact (Option.some.inj hpop).symm

theorem Arch.slot_inj (A : Arch R w) {sp : ℕ} {r q : R} (h : A.slot sp r = A.slot sp q) :
    r = q := by
  have hidx := Nat.eq_of_mul_eq_mul_left A.wordBytes_pos (Nat.add_left_cancel h)
  exact Option.some.inj ((List.idxOf_inj (A.mem_pops r)).mp hidx)

/-- The slots of the registers are below what the processor pops. -/
theorem Arch.slot_lt (A : Arch R w) (sp : ℕ) (r : R) :
    A.slot sp r < sp + A.wordBytes * A.pops.length :=
  Nat.add_lt_add_left (Nat.mul_lt_mul_of_pos_left (A.idxOf_lt r) A.wordBytes_pos) sp

/-- **A store to the slot of a register** changes that register on the return, and nothing else. -/
theorem leave_update {mem : ℕ → BitVec w} {sp : ℕ} {regs : R → BitVec w} (hnodup : A.pops.Nodup)
    (r : R) (v : BitVec w) : leave A (Function.update mem (A.slot sp r) v) sp regs =
      { leave A mem sp regs with
        regs := Function.update (leave A mem sp regs).regs r v } := by
  have hlt := A.slot_lt sp r
  have hiret : ∀ {a}, sp + A.wordBytes * A.pops.length ≤ a →
      Function.update mem (A.slot sp r) v a = mem a :=
    fun h => Function.update_of_ne (by omega) _ _
  refine Context.ext (funext fun q => ?_) (hiret (by omega)) (hiret (by omega))
    (hiret (by omega)) (hiret (by omega)) (hiret (by omega))
  dsimp only
  rw [leave_regs hnodup]
  by_cases e : q = r
  · subst e
    rw [Function.update_self, Function.update_self]
  · rw [Function.update_of_ne e, Function.update_of_ne fun h => e (A.slot_inj h),
      leave_regs hnodup]

end Arch

end ZeptoOS.Core
