import ZeptoOS.Lib.Bytes

/-!
# Lib — Protection

The protection of the x86 family, in its 32-bit protected mode and its 64-bit mode: descriptors and
gates as the processor reads them out of memory, the delivery of interrupts, exceptions and
`int n`, the return from them, and the loads of segment and task registers.

Addresses are linear; paging, the limits of stacks, 16-bit gates and task gates are left out, and
so is the LDT: a selector into it is refused.  A fault is its vector.

`serve` follows a fault to the handler of it, of a double fault, or to shutdown (`none`).
`deliver_eq` and `returnTo_outer` say what the two transfers do where the descriptors they go
through are known, and `serve_unhandled` that without a gate for the exceptions every fault is
fatal.
-/

namespace ZeptoOS.Lib.Protection

/-- 32-bit protected mode, and 64-bit mode. -/
inductive Mode where
  | legacy | long
deriving DecidableEq

namespace Mode

/-- The bytes of a stack pointer in the task state. -/
def wordBytes : Mode → ℕ
  | legacy => 4
  | long => 8

def gateBytes : Mode → ℕ
  | legacy => 8
  | long => 16

/-- The bytes of a stack in the task state: 32-bit mode has a segment with the pointer. -/
def stackBytes : Mode → ℕ
  | legacy => 6
  | long => 8

/-- The bytes of the descriptor of a task state. -/
def taskBytes : Mode → ℕ
  | legacy => 8
  | long => 16

/-- An address is canonical in 64-bit mode; in 32-bit mode all are. -/
def Canonical (M : Mode) (a : ℕ) : Prop :=
  match M with
  | legacy => True
  | long => a < 2 ^ 47 ∨ 2 ^ 64 - 2 ^ 47 ≤ a

instance (M : Mode) (a : ℕ) : Decidable (M.Canonical a) := by
  cases M
  · exact inferInstanceAs (Decidable True)
  · exact inferInstanceAs (Decidable (_ ∨ _))

end Mode

/-! ### Descriptors and gates -/

/-- The accessed bit of the descriptor at `a`. -/
def markAccessed (mem : ℕ → BitVec 8) (a : ℕ) : ℕ → BitVec 8 :=
  Function.update mem (a + 5) (mem (a + 5) ||| 1)

/-- The busy bit of the descriptor at `a`. -/
def markBusy (mem : ℕ → BitVec 8) (a : ℕ) : ℕ → BitVec 8 :=
  Function.update mem (a + 5) (mem (a + 5) ||| 2)

/-- A descriptor of the GDT. -/
structure Descriptor where
  base : ℕ
  limit : ℕ
  /-- The type with the `S` bit on top, without the accessed bit of a segment. -/
  kind : ℕ
  dpl : ℕ
  present : Bool
  long : Bool
  big : Bool
deriving DecidableEq

namespace Descriptor

variable (d : Descriptor)

def isCode : Prop := 24 ≤ d.kind

/-- Code that is entered at the privilege of its caller. -/
def isConforming : Prop := 28 ≤ d.kind

def isWritable : Prop := d.kind = 18 ∨ d.kind = 22

/-- Data, or code that may be read. -/
def isReadable : Prop := 16 ≤ d.kind ∧ (d.kind < 24 ∨ d.kind = 26 ∨ d.kind = 30)

instance : Decidable d.isCode := inferInstanceAs (Decidable (_ ≤ _))
instance : Decidable d.isConforming := inferInstanceAs (Decidable (_ ≤ _))
instance : Decidable d.isWritable := inferInstanceAs (Decidable (_ ∨ _))
instance : Decidable d.isReadable := inferInstanceAs (Decidable (_ ∧ _))

end Descriptor

/-- The kind in an access byte. -/
def kindOf (access : ℕ) : ℕ :=
  if access % 32 < 16 then access % 32 else access % 32 / 2 * 2

/-- The descriptor at `a`. -/
def descriptorAt (mem : ℕ → BitVec 8) (a : ℕ) : Descriptor :=
  let access := leAt mem (a + 5) 1
  let flags := leAt mem (a + 6) 1
  let limit := leAt mem a 2 + 2 ^ 16 * (flags % 16)
  { base := leAt mem (a + 2) 3 + 2 ^ 24 * leAt mem (a + 7) 1
    limit := if flags.testBit 7 then limit * 4096 + 4095 else limit
    kind := kindOf access
    dpl := access / 32 % 4
    present := access.testBit 7
    long := flags.testBit 5
    big := flags.testBit 6 }

/-- The base of the task state whose descriptor is at `a`; in 64-bit mode the next eight bytes have
its upper half. -/
def taskBase (M : Mode) (mem : ℕ → BitVec 8) (a : ℕ) : ℕ :=
  match M with
  | .legacy => (descriptorAt mem a).base
  | .long => (descriptorAt mem a).base + 2 ^ 32 * leAt mem (a + 8) 4

/-- A gate of the IDT. -/
structure Gate where
  offset : ℕ
  selector : ℕ
  stack : ℕ
  kind : ℕ
  dpl : ℕ
  present : Bool
deriving DecidableEq

/-- The gate at `a`; in 64-bit mode it may name a stack of its own. -/
def gateAt (M : Mode) (mem : ℕ → BitVec 8) (a : ℕ) : Gate :=
  let access := leAt mem (a + 5) 1
  { offset := leAt mem a 2 + 2 ^ 16 * leAt mem (a + 6) 2 +
      match M with
      | .legacy => 0
      | .long => 2 ^ 32 * leAt mem (a + 8) 4
    selector := leAt mem (a + 2) 2
    stack := match M with
      | .legacy => 0
      | .long => leAt mem (a + 4) 1 % 8
    kind := access % 32
    dpl := access / 32 % 4
    present := access.testBit 7 }

/-- An interrupt gate, or a trap gate. -/
def Gate.isEntry (g : Gate) : Prop := g.kind = 14 ∨ g.kind = 15

instance (g : Gate) : Decidable g.isEntry := inferInstanceAs (Decidable (_ ∨ _))

/-! ### The processor -/

/-- What `lgdt`, `lidt` and `ltr` load. -/
@[ext]
structure Tables where
  gdt : ℕ
  gdtLimit : ℕ
  idt : ℕ
  idtLimit : ℕ
  tss : ℕ
  tssLimit : ℕ

/-- Where a program is. -/
@[ext]
structure Point where
  ip : ℕ
  cs : ℕ
  flags : ℕ
  sp : ℕ
  ss : ℕ

/-- The privilege level. -/
def Point.cpl (p : Point) : ℕ := p.cs % 4

/-- What enters the kernel; an exception may have an error code. -/
inductive Cause where
  | external | software | exception (code : Option ℕ)
deriving DecidableEq

/-- The error code a cause pushes. -/
def Cause.code : Cause → Option ℕ
  | .exception code => code
  | .external | .software => none

/-- An entry: where it goes on, the words it pushes in order, and on which stack. -/
structure Entered where
  ip : ℕ
  cs : ℕ
  ss : ℕ
  sp : ℕ
  pushed : List ℕ
  masks : Bool

section

variable (M : Mode) (T : Tables) (mem : ℕ → BitVec 8)

/-- The descriptor that a selector names. -/
def Tables.lookup (sel : ℕ) : Option Descriptor :=
  if sel / 4 = 0 ∨ sel.testBit 2 ∨ T.gdtLimit < sel / 8 * 8 + 7 then none
  else some (descriptorAt mem (T.gdt + sel / 8 * 8))

/-- The gate of vector `v`, for a cause at the privilege `cpl`. -/
def Tables.gate (cpl v : ℕ) (cause : Cause) : Except ℕ Gate :=
  if T.idtLimit < M.gateBytes * v + (M.gateBytes - 1) then .error 13
  else
    let g := gateAt M mem (T.idt + M.gateBytes * v)
    if ¬ g.isEntry then .error 13
    else if cause = .software ∧ g.dpl < cpl then .error 13
    else if ¬ g.present then .error 11
    else .ok g

/-- The code that a gate leads to. -/
def Tables.target (cpl sel : ℕ) : Except ℕ Descriptor :=
  match T.lookup mem sel with
  | none => .error 13
  | some d =>
      if ¬ d.isCode ∨ cpl < d.dpl then .error 13
      else if ¬ d.present then .error 11
      else if M = .long ∧ ¬ (d.long ∧ ¬ d.big) then .error 13
      else .ok d

/-- The stack that the task state has for the privilege `dpl`. -/
def Tables.innerStack (dpl : ℕ) : Except ℕ (ℕ × ℕ) :=
  if T.tssLimit < 8 * dpl + 4 + (M.stackBytes - 1) then .error 10
  else
    let sp := leAt mem (T.tss + 4 + 8 * dpl) M.wordBytes
    match M with
    | .long => if M.Canonical sp then .ok (dpl, sp) else .error 12
    | .legacy =>
        let ss := leAt mem (T.tss + 8 + 8 * dpl) 2
        match T.lookup mem ss with
        | none => .error 10
        | some s =>
            if ss % 4 ≠ dpl ∨ s.dpl ≠ dpl ∨ ¬ s.isWritable then .error 10
            else if ¬ s.present then .error 12
            else .ok (ss, sp)

/-- The stack of an entry into `d` through `g`. -/
def Tables.entryStack (p : Point) (g : Gate) (d : Descriptor) : Except ℕ (ℕ × ℕ) :=
  let inner := ¬ d.isConforming ∧ d.dpl < p.cpl
  if g.stack ≠ 0 then
    if T.tssLimit < 28 + 8 * g.stack + 7 then .error 10
    else .ok (if inner then d.dpl else p.ss, leAt mem (T.tss + 28 + 8 * g.stack) 8)
  else if inner then T.innerStack M mem d.dpl
  else .ok (p.ss, p.sp)

/-- The delivery of vector `v` to a program at `p`. -/
def Tables.deliver (p : Point) (v : ℕ) (cause : Cause) : Except ℕ Entered := do
  let g ← T.gate M mem p.cpl v cause
  let d ← T.target M mem p.cpl g.selector
  let (ss, sp) ← T.entryStack M mem p g d
  let cpl := if d.isConforming then p.cpl else d.dpl
  let frame :=
    if M = .long ∨ cpl < p.cpl then [p.ss, p.sp, p.flags, p.cs, p.ip]
    else [p.flags, p.cs, p.ip]
  if ¬ M.Canonical g.offset ∨ M = .legacy ∧ d.limit < g.offset then .error 13
  else
    .ok {
      ip := g.offset
      cs := g.selector / 4 * 4 + cpl
      ss
      sp := if M = .long then sp - sp % 16 else sp
      pushed := frame ++ cause.code.toList
      masks := g.kind = 14 }

/-- The exceptions that a fault in their delivery turns into a double fault. -/
def Contributory (v : ℕ) : Prop := v = 0 ∨ 10 ≤ v ∧ v ≤ 14

instance (v : ℕ) : Decidable (Contributory v) := inferInstanceAs (Decidable (_ ∨ _))

/-- The delivery of a double fault; a fault in it is the third, and shuts the processor down. -/
def Tables.doubleFault (p : Point) : Option Entered :=
  (T.deliver M mem p 8 (.exception (some 0))).toOption

/-- The delivery of a fault `v` that another delivery raised. -/
def Tables.fault (p : Point) (v : ℕ) : Option Entered :=
  match T.deliver M mem p v (.exception (some 0)) with
  | .ok e => some e
  | .error _ => T.doubleFault M mem p

/-- What a processor at `p` goes on with when vector `v` comes up, and `none` where it shuts
down. -/
def Tables.serve (p : Point) (v : ℕ) (cause : Cause) : Option Entered :=
  match T.deliver M mem p v cause with
  | .ok e => some e
  | .error f =>
      match cause with
      | .external | .software => T.fault M mem p f
      | .exception _ =>
          if v = 8 then none
          else if Contributory v then T.doubleFault M mem p
          else T.fault M mem p f

/-- The return of a handler at the privilege `cpl` to `p`. -/
def Tables.returnTo (cpl : ℕ) (p : Point) : Except ℕ Point :=
  match T.lookup mem p.cs with
  | none => .error 13
  | some d =>
      if ¬ d.isCode ∨ p.cpl < cpl then .error 13
      else if (if d.isConforming then p.cpl < d.dpl else d.dpl ≠ p.cpl) then .error 13
      else if ¬ d.present then .error 11
      else if ¬ M.Canonical p.ip ∨ M = .legacy ∧ d.limit < p.ip then .error 13
      else if M = .legacy ∧ p.cpl = cpl then .ok p
      else if M = .long ∧ p.ss / 4 = 0 ∧ p.cpl ≠ 3 ∧ p.ss % 4 = p.cpl then .ok p
      else
        match T.lookup mem p.ss with
        | none => .error 13
        | some s =>
            if p.ss % 4 ≠ p.cpl ∨ s.dpl ≠ p.cpl ∨ ¬ s.isWritable then .error 13
            else if ¬ s.present then .error 12
            else .ok p

/-- What a return to the privilege `cpl` leaves in a data segment register. -/
def Tables.scrub (cpl sel : ℕ) : ℕ :=
  match T.lookup mem sel with
  | none => 0
  | some d => if ¬ d.isConforming ∧ d.dpl < cpl then 0 else sel

/-- The load of a data segment register. -/
def Tables.loadData (cpl sel : ℕ) : Except ℕ ℕ :=
  if sel / 4 = 0 then .ok sel
  else
    match T.lookup mem sel with
    | none => .error 13
    | some d =>
        if ¬ d.isReadable then .error 13
        else if ¬ d.isConforming ∧ d.dpl < max (sel % 4) cpl then .error 13
        else if ¬ d.present then .error 11
        else .ok sel

/-- The load of the stack segment register. -/
def Tables.loadStack (cpl sel : ℕ) : Except ℕ ℕ :=
  match T.lookup mem sel with
  | none => .error 13
  | some d =>
      if sel % 4 ≠ cpl ∨ d.dpl ≠ cpl ∨ ¬ d.isWritable then .error 13
      else if ¬ d.present then .error 12
      else .ok sel

/-- A store through a data segment register; in 64-bit mode any selector will do. -/
def Tables.stores (sel : ℕ) : Except ℕ Unit :=
  match M with
  | .long => .ok ()
  | .legacy =>
      match T.lookup mem sel with
      | none => .error 13
      | some d => if d.isWritable then .ok () else .error 13

/-- `lgdt` of the pointer at `a` -/
def Tables.lgdt (a : ℕ) : Tables :=
  { T with gdtLimit := leAt mem a 2, gdt := leAt mem (a + 2) M.wordBytes }

/-- `lidt` of the pointer at `a` -/
def Tables.lidt (a : ℕ) : Tables :=
  { T with idtLimit := leAt mem a 2, idt := leAt mem (a + 2) M.wordBytes }

/-- `ltr`: the task register, and the memory with the descriptor marked busy. -/
def Tables.ltr (sel : ℕ) : Except ℕ (Tables × (ℕ → BitVec 8)) :=
  let a := T.gdt + sel / 8 * 8
  let d := descriptorAt mem a
  if sel / 4 = 0 ∨ sel.testBit 2 ∨ T.gdtLimit < sel / 8 * 8 + (M.taskBytes - 1) then .error 13
  else if d.kind ≠ 9 then .error 13
  else if ¬ d.present then .error 11
  else
    .ok ({ T with tss := taskBase M mem a, tssLimit := d.limit }, markBusy mem a)

end

/-! ### What the reads depend on -/

section Reads

variable {mem mem' : ℕ → BitVec 8} {a : ℕ}

theorem descriptorAt_congr (h : ∀ x, a ≤ x → x < a + 8 → mem' x = mem x) :
    descriptorAt mem' a = descriptorAt mem a := by
  have hle : ∀ k n, k + n ≤ 8 → leAt mem' (a + k) n = leAt mem (a + k) n := fun k n hk =>
    leAt_congr fun x h₁ h₂ => h x (by omega) (by omega)
  have hlimit : leAt mem' a 2 = leAt mem a 2 := hle 0 2 (by decide)
  rw [descriptorAt, descriptorAt, hlimit, hle 2 3 (by decide), hle 5 1 (by decide),
    hle 6 1 (by decide), hle 7 1 (by decide)]

theorem gateAt_congr {M : Mode} (h : ∀ x, a ≤ x → x < a + M.gateBytes → mem' x = mem x) :
    gateAt M mem' a = gateAt M mem a := by
  have hle : ∀ k n, k + n ≤ M.gateBytes → leAt mem' (a + k) n = leAt mem (a + k) n :=
    fun k n hk => leAt_congr fun x h₁ h₂ => h x (by omega) (by omega)
  cases M with
  | legacy =>
      have hlow : leAt mem' a 2 = leAt mem a 2 := hle 0 2 (by decide)
      simp only [gateAt, hlow, hle 2 2 (by decide), hle 5 1 (by decide), hle 6 2 (by decide)]
  | long =>
      have hlow : leAt mem' a 2 = leAt mem a 2 := hle 0 2 (by decide)
      simp only [gateAt, hlow, hle 2 2 (by decide), hle 4 1 (by decide), hle 5 1 (by decide),
        hle 6 2 (by decide), hle 8 4 (by decide)]

theorem markAccessed_other {x : ℕ} (h : x ≠ a + 5) : markAccessed mem a x = mem x :=
  Function.update_of_ne h _ _

theorem markBusy_other {x : ℕ} (h : x ≠ a + 5) : markBusy mem a x = mem x :=
  Function.update_of_ne h _ _

theorem kindOf_accessed : ∀ b : BitVec 8, 16 ≤ kindOf b.toNat →
    kindOf (b ||| 1).toNat = kindOf b.toNat ∧ (b ||| 1).toNat / 32 % 4 = b.toNat / 32 % 4 ∧
      (b ||| 1).toNat.testBit 7 = b.toNat.testBit 7 := by
  decide +kernel

/-- That a segment has been used does not show. -/
theorem descriptorAt_accessed (h : 16 ≤ (descriptorAt mem a).kind) :
    descriptorAt (markAccessed mem a) a = descriptorAt mem a := by
  have hle : ∀ k n, (a + k + n ≤ a + 5 ∨ a + 5 < a + k) →
      leAt (markAccessed mem a) (a + k) n = leAt mem (a + k) n := fun k n hk =>
    leAt_congr fun x h₁ h₂ => Function.update_of_ne (by omega) _ _
  have hlimit : leAt (markAccessed mem a) a 2 = leAt mem a 2 := hle 0 2 (by omega)
  have hself : markAccessed mem a (a + 5) = mem (a + 5) ||| 1 := Function.update_self _ _ _
  have hone : ∀ mem : ℕ → BitVec 8, leAt mem (a + 5) 1 = (mem (a + 5)).toNat := fun mem =>
    Nat.add_zero _
  have hkind : 16 ≤ kindOf (mem (a + 5)).toNat := by
    rw [← hone]
    exact h
  obtain ⟨h₁, h₂, h₃⟩ := kindOf_accessed _ hkind
  simp only [descriptorAt, hlimit, hle 2 3 (by omega), hle 6 1 (by omega), hle 7 1 (by omega),
    hone, hself, h₁, h₂, h₃]

end Reads

/-! ### Transfers through known descriptors -/

section Transfers

variable {M : Mode} {T : Tables} {mem : ℕ → BitVec 8} {cpl v sel : ℕ} {cause : Cause} {g : Gate}
  {d s : Descriptor} {p : Point}

theorem lookup_eq (hnull : sel / 4 ≠ 0) (hldt : sel.testBit 2 = false)
    (hlim : sel / 8 * 8 + 7 ≤ T.gdtLimit) :
    T.lookup mem sel = some (descriptorAt mem (T.gdt + sel / 8 * 8)) := by
  refine if_neg ?_
  rintro (h | h | h)
  · exact hnull h
  · rw [hldt] at h
    cases h
  · omega

theorem gate_eq (hlim : M.gateBytes * v + (M.gateBytes - 1) ≤ T.idtLimit)
    (hg : gateAt M mem (T.idt + M.gateBytes * v) = g) (hentry : g.isEntry)
    (hsoft : cause = .software → cpl ≤ g.dpl) (hp : g.present = true) :
    T.gate M mem cpl v cause = .ok g := by
  subst hg
  rw [Tables.gate, if_neg (Nat.not_lt.mpr hlim)]
  dsimp only
  rw [if_neg (not_not.mpr hentry), if_neg fun h => Nat.not_le.mpr h.2 (hsoft h.1),
    if_neg (not_not.mpr hp)]

/-- Beyond the limit of the IDT, or at what is not an interrupt gate. -/
theorem gate_absent (h : M.gateBytes * v + (M.gateBytes - 1) ≤ T.idtLimit →
    ¬ (gateAt M mem (T.idt + M.gateBytes * v)).isEntry) :
    T.gate M mem cpl v cause = .error 13 := by
  rw [Tables.gate]
  split
  · rfl
  · rename_i hlim
    dsimp only
    rw [if_pos (h (Nat.not_lt.mp hlim))]

/-- `int n` through a gate of more privilege. -/
theorem gate_denied (hg : gateAt M mem (T.idt + M.gateBytes * v) = g) (hdpl : g.dpl < cpl) :
    T.gate M mem cpl v .software = .error 13 := by
  rw [Tables.gate]
  split
  · rfl
  · dsimp only
    split
    · rfl
    · rw [if_pos ⟨rfl, by rw [hg]; exact hdpl⟩]

theorem target_eq (h : T.lookup mem sel = some d) (hcode : d.isCode) (hdpl : d.dpl ≤ cpl)
    (hp : d.present = true) (hlong : M = .long → d.long = true ∧ d.big = false) :
    T.target M mem cpl sel = .ok d := by
  rw [Tables.target, h]
  dsimp only
  rw [if_neg (not_or.mpr ⟨not_not.mpr hcode, Nat.not_lt.mpr hdpl⟩), if_neg (not_not.mpr hp),
    if_neg fun h => h.2 ⟨(hlong h.1).1, by simp [(hlong h.1).2]⟩]

theorem deliver_eq {ss sp : ℕ} (hg : T.gate M mem p.cpl v cause = .ok g)
    (hd : T.target M mem p.cpl g.selector = .ok d)
    (hstack : T.entryStack M mem p g d = .ok (ss, sp)) (hconf : ¬ d.isConforming)
    (hip : M.Canonical g.offset) (hlimit : M = .legacy → g.offset ≤ d.limit) :
    T.deliver M mem p v cause = .ok {
      ip := g.offset
      cs := g.selector / 4 * 4 + d.dpl
      ss
      sp := if M = .long then sp - sp % 16 else sp
      pushed := (if M = .long ∨ d.dpl < p.cpl then [p.ss, p.sp, p.flags, p.cs, p.ip]
        else [p.flags, p.cs, p.ip]) ++ cause.code.toList
      masks := g.kind = 14 } := by
  rw [Tables.deliver, hg]
  simp only [bind, Except.bind, hd, hstack]
  rw [if_neg hconf, if_neg]
  rintro (h | ⟨h₁, h₂⟩)
  · exact h hip
  · exact Nat.not_le.mpr h₂ (hlimit h₁)

theorem deliver_error {f : ℕ} (hg : T.gate M mem p.cpl v cause = .error f) :
    T.deliver M mem p v cause = .error f := by
  rw [Tables.deliver, hg]
  rfl

theorem entryStack_inner (hg : g.stack = 0) (hconf : ¬ d.isConforming) (hdpl : d.dpl < p.cpl) :
    T.entryStack M mem p g d = T.innerStack M mem d.dpl := by
  rw [Tables.entryStack, if_neg (not_not.mpr hg), if_pos ⟨hconf, hdpl⟩]

theorem entryStack_same (hg : g.stack = 0) (hdpl : p.cpl ≤ d.dpl) :
    T.entryStack M mem p g d = .ok (p.ss, p.sp) := by
  rw [Tables.entryStack, if_neg (not_not.mpr hg), if_neg fun h => Nat.not_le.mpr h.2 hdpl]

/-- The stack of 64-bit mode has no segment. -/
theorem innerStack_long {dpl sp : ℕ} (hlim : 8 * dpl + 11 ≤ T.tssLimit)
    (hsp : leAt mem (T.tss + 4 + 8 * dpl) 8 = sp) (hcanon : Mode.long.Canonical sp) :
    T.innerStack .long mem dpl = .ok (dpl, sp) := by
  subst hsp
  rw [Tables.innerStack, if_neg (by simp only [Mode.stackBytes]; omega)]
  exact if_pos hcanon

theorem innerStack_legacy {dpl ss sp : ℕ} (hlim : 8 * dpl + 9 ≤ T.tssLimit)
    (hsp : leAt mem (T.tss + 4 + 8 * dpl) 4 = sp) (hss : leAt mem (T.tss + 8 + 8 * dpl) 2 = ss)
    (hs : T.lookup mem ss = some s) (hrpl : ss % 4 = dpl) (hdpl : s.dpl = dpl)
    (hw : s.isWritable) (hp : s.present = true) :
    T.innerStack .legacy mem dpl = .ok (ss, sp) := by
  subst hsp hss
  rw [Tables.innerStack, if_neg (by simp only [Mode.stackBytes]; omega)]
  dsimp only
  rw [hs]
  dsimp only
  rw [if_neg, if_neg (not_not.mpr hp)]
  · rfl
  · rintro (h | h | h)
    · exact h hrpl
    · exact h hdpl
    · exact h hw

/-- A return to less privilege. -/
theorem returnTo_outer (hcs : T.lookup mem p.cs = some d) (hcode : d.isCode)
    (hconf : ¬ d.isConforming) (hcpl : cpl < p.cpl) (hd : d.dpl = p.cpl) (hdp : d.present = true)
    (hip : M.Canonical p.ip) (hlimit : M = .legacy → p.ip ≤ d.limit)
    (hss : T.lookup mem p.ss = some s) (hrpl : p.ss % 4 = p.cpl) (hs : s.dpl = p.cpl)
    (hw : s.isWritable) (hsp : s.present = true) : T.returnTo M mem cpl p = .ok p := by
  rw [Tables.returnTo, hcs]
  dsimp only
  have hnull : p.ss / 4 ≠ 0 := by
    intro h
    rw [Tables.lookup, if_pos (.inl h)] at hss
    cases hss
  rw [if_neg (not_or.mpr ⟨not_not.mpr hcode, by omega⟩),
    if_neg (by rw [if_neg hconf]; exact not_not.mpr hd), if_neg (not_not.mpr hdp), if_neg,
    if_neg (by omega), if_neg fun h => hnull h.2.1, hss]
  · dsimp only
    rw [if_neg, if_neg (not_not.mpr hsp)]
    rintro (h | h | h)
    · exact h hrpl
    · exact h hs
    · exact h hw
  · rintro (h | ⟨h₁, h₂⟩)
    · exact h hip
    · exact Nat.not_le.mpr h₂ (hlimit h₁)

theorem loadData_eq (h : T.lookup mem sel = some d) (hr : d.isReadable)
    (hdpl : max (sel % 4) cpl ≤ d.dpl) (hp : d.present = true) :
    T.loadData mem cpl sel = .ok sel := by
  rw [Tables.loadData, h]
  split
  · rfl
  · dsimp only
    rw [if_neg (not_not.mpr hr), if_neg fun h => Nat.not_le.mpr h.2 hdpl,
      if_neg (not_not.mpr hp)]

theorem loadStack_eq (h : T.lookup mem sel = some d) (hrpl : sel % 4 = cpl) (hdpl : d.dpl = cpl)
    (hw : d.isWritable) (hp : d.present = true) : T.loadStack mem cpl sel = .ok sel := by
  rw [Tables.loadStack, h]
  dsimp only
  rw [if_neg, if_neg (not_not.mpr hp)]
  rintro (h | h | h)
  · exact h hrpl
  · exact h hdpl
  · exact h hw

/-- `ltr` of an available task state. -/
theorem ltr_eq (hnull : sel / 4 ≠ 0) (hldt : sel.testBit 2 = false)
    (hlim : sel / 8 * 8 + (M.taskBytes - 1) ≤ T.gdtLimit)
    (hd : descriptorAt mem (T.gdt + sel / 8 * 8) = d) (hkind : d.kind = 9)
    (hp : d.present = true) : T.ltr M mem sel = .ok (
      { T with tss := taskBase M mem (T.gdt + sel / 8 * 8), tssLimit := d.limit },
      markBusy mem (T.gdt + sel / 8 * 8)) := by
  subst hd
  rw [Tables.ltr, if_neg, if_neg (not_not.mpr hkind), if_neg (not_not.mpr hp)]
  rintro (h | h | h)
  · exact hnull h
  · rw [hldt] at h
    cases h
  · omega

/-! ### Faults -/

theorem serve_of_deliver {e : Entered} (h : T.deliver M mem p v cause = .ok e) :
    T.serve M mem p v cause = some e := by
  rw [Tables.serve, h]

/-- **Without handlers every fault is fatal.**  Where no vector that a fault can raise has a gate,
what is not delivered shuts the processor down. -/
theorem serve_unhandled
    (hno : ∀ v, ∀ code, Contributory v ∨ v = 8 →
      ∃ f, T.deliver M mem p v (.exception code) = .error f)
    {f : ℕ} (hf : T.deliver M mem p v cause = .error f) (hfault : Contributory f) :
    T.serve M mem p v cause = none := by
  have hdouble : T.doubleFault M mem p = none := by
    obtain ⟨f, hf⟩ := hno 8 (some 0) (.inr rfl)
    rw [Tables.doubleFault, hf]
    rfl
  have hnext : T.fault M mem p f = none := by
    obtain ⟨f', hf'⟩ := hno f (some 0) (.inl hfault)
    rw [Tables.fault, hf']
    exact hdouble
  rw [Tables.serve, hf]
  cases cause with
  | external => exact hnext
  | software => exact hnext
  | exception code =>
      dsimp only
      split
      · rfl
      · split
        · exact hdouble
        · exact hnext

end Transfers

end ZeptoOS.Lib.Protection
