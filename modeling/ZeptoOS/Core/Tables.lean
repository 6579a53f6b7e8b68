import ZeptoOS.Core.Scheduler
import ZeptoOS.Lib.Protection
import ZeptoOS.Lib.Run
import ZeptoOS.Mm.PmmInit

/-!
# Core — Tables

The tables of `gdt.c` and `idt.c`, as far as the two targets share them, and what the processor
makes of them while the kernel runs.

`Installed` is what `init_gdt` and `idt_install` are to leave.  Under it, `serve_installed` says of
every vector what enters the kernel, from where and on which stack, and that everything else is
fatal.  `TableStep` is one event of a kernel that schedules: `Kept.step` says that the tables stay
as they are, and that the TSS has the stack of the current task.
-/

namespace ZeptoOS.Core
open Lib Lib.Protection

/-! ### Entries -/

/-- `struct gdt_entry` -/
structure GdtEntry where
  limitLow : BitVec 16
  baseLow : BitVec 16
  baseMiddle : BitVec 8
  access : BitVec 8
  granularity : BitVec 8
  baseHigh : BitVec 8

namespace GdtEntry

variable (e : GdtEntry)

/-- The entry in memory; the structure is packed. -/
def bytes : List (BitVec 8) :=
  encodeLe 2 e.limitLow.toNat ++ encodeLe 2 e.baseLow.toNat ++
    [e.baseMiddle, e.access, e.granularity, e.baseHigh]

/-- What the processor reads in the entry. -/
def descriptor : Descriptor :=
  let limit := e.limitLow.toNat + 2 ^ 16 * (e.granularity.toNat % 16)
  { base := e.baseLow.toNat + 2 ^ 16 * e.baseMiddle.toNat + 2 ^ 24 * e.baseHigh.toNat
    limit := if e.granularity.toNat.testBit 7 then limit * 4096 + 4095 else limit
    kind := kindOf e.access.toNat
    dpl := e.access.toNat / 32 % 4
    present := e.access.toNat.testBit 7
    long := e.granularity.toNat.testBit 5
    big := e.granularity.toNat.testBit 6 }

@[simp] theorem length_bytes : e.bytes.length = 8 := by
  simp [bytes]

variable {e}

theorem descriptorAt_of_holds {mem : Bytes} {a : ℕ} (h : Holds mem a e.bytes) :
    descriptorAt mem a = e.descriptor := by
  obtain ⟨hlow, htail⟩ := holds_append.mp h
  obtain ⟨hlimit, hbase⟩ := holds_append.mp hlow
  have hlimit' : leAt mem a 2 = e.limitLow.toNat :=
    (leAt_of_holds hlimit).trans (Nat.mod_eq_of_lt e.limitLow.isLt)
  have hbase' : leAt mem (a + 2) 2 = e.baseLow.toNat :=
    (leAt_of_holds hbase).trans (Nat.mod_eq_of_lt e.baseLow.isLt)
  simp only [List.length_append, length_encodeLe, Nat.reduceAdd, holds_cons] at htail
  obtain ⟨hmiddle, haccess, hgran, hhigh, -⟩ := htail
  have hone : ∀ x, leAt mem x 1 = (mem x).toNat := fun x => Nat.add_zero _
  have hthree : leAt mem (a + 2) 3 = e.baseLow.toNat + 2 ^ 16 * e.baseMiddle.toNat := by
    rw [← hbase', ← hmiddle]
    simp only [leAt, Nat.add_assoc, Nat.reduceAdd]
    omega
  simp only [descriptorAt, descriptor, hone, hlimit', hthree, haccess, hgran, hhigh]

/-- The entry of a TSS. -/
theorem descriptor_tss (hlimit : e.limitLow = 103) (haccess : e.access = 0x89)
    (hgran : e.granularity = 0 ∨ e.granularity = 0x40) :
    e.descriptor.limit = 103 ∧ e.descriptor.kind = 9 ∧ e.descriptor.present = true := by
  simp only [descriptor, hlimit, haccess]
  rcases hgran with hgran | hgran <;> rw [hgran] <;> decide

end GdtEntry

/-! #### The masks of the assignments -/

theorem toNat_mask (n x : ℕ) : (BitVec.ofNat n (x &&& 2 ^ n - 1)).toNat = x % 2 ^ n := by
  rw [BitVec.toNat_ofNat, Nat.and_two_pow_sub_one_eq_mod, Nat.mod_mod]

theorem toNat_mask8 (x : ℕ) : (BitVec.ofNat 8 (x &&& 0xFF)).toNat = x % 2 ^ 8 := toNat_mask 8 x

theorem toNat_mask16 (x : ℕ) : (BitVec.ofNat 16 (x &&& 0xFFFF)).toNat = x % 2 ^ 16 :=
  toNat_mask 16 x

theorem toNat_mask32 (x : ℕ) : (BitVec.ofNat 32 (x &&& 0xFFFFFFFF)).toNat = x % 2 ^ 32 :=
  toNat_mask 32 x

/-! ### Symbols -/

/-- `sizeof(gdt)` -/
def gdtBytes : Mode → ℕ
  | .legacy => 48
  | .long => 56

/-- `sizeof(struct gdt_ptr)` -/
def pointerBytes : Mode → ℕ
  | .legacy => 6
  | .long => 10

/-- `sizeof(tss)` -/
def tssBytes : ℕ := 104

/-- `sizeof(idt)` -/
def idtBytes (M : Mode) : ℕ := 256 * M.gateBytes

/-- Two ranges that share no byte. -/
def Apart (r s : ℕ × ℕ) : Prop := r.1 + r.2 ≤ s.1 ∨ s.1 + s.2 ≤ r.1

instance : DecidableRel Apart := fun _ _ => inferInstanceAs (Decidable (_ ∨ _))

/-- Where the linker puts the static data of `gdt.c` and `idt.c` and the stubs: the data apart, and
all of it below 4 GiB. -/
structure Symbols (M : Mode) where
  gdt : ℕ
  gdtPointer : ℕ
  tss : ℕ
  idt : ℕ
  idtPointer : ℕ
  irq0Stub : ℕ
  irq1Stub : ℕ
  syscallStub : ℕ
  apart : [(gdt, gdtBytes M), (gdtPointer, pointerBytes M), (tss, tssBytes), (idt, idtBytes M),
    (idtPointer, pointerBytes M)].Pairwise Apart
  gdt_low : gdt + gdtBytes M ≤ 2 ^ 32
  tss_low : tss + tssBytes ≤ 2 ^ 32
  idt_low : idt + idtBytes M ≤ 2 ^ 32
  stubs_low : irq0Stub < 2 ^ 32 ∧ irq1Stub < 2 ^ 32 ∧ syscallStub < 2 ^ 32

namespace Symbols

variable {M : Mode} (S : Symbols M)

theorem tss_apart :
    Apart (S.gdt, gdtBytes M) (S.tss, tssBytes) ∧ Apart (S.tss, tssBytes) (S.idt, idtBytes M) := by
  have h := S.apart
  simp only [List.pairwise_cons, List.mem_cons] at h
  exact ⟨h.1 _ (.inr (.inl rfl)), h.2.2.1 _ (.inl rfl)⟩

theorem gdt_idt_apart : Apart (S.gdt, gdtBytes M) (S.idt, idtBytes M) := by
  have h := S.apart
  simp only [List.pairwise_cons, List.mem_cons] at h
  exact h.1 _ (.inr (.inr (.inl rfl)))

theorem gdt_gdtPointer_apart : Apart (S.gdt, gdtBytes M) (S.gdtPointer, pointerBytes M) := by
  have h := S.apart
  simp only [List.pairwise_cons, List.mem_cons] at h
  exact h.1 _ (.inl rfl)

theorem tss_gdtPointer_apart : Apart (S.gdtPointer, pointerBytes M) (S.tss, tssBytes) := by
  have h := S.apart
  simp only [List.pairwise_cons, List.mem_cons] at h
  exact h.2.1 _ (.inl rfl)

theorem idt_idtPointer_apart : Apart (S.idt, idtBytes M) (S.idtPointer, pointerBytes M) := by
  have h := S.apart
  simp only [List.pairwise_cons, List.mem_cons] at h
  exact h.2.2.2.1 _ (.inl rfl)

theorem idtPointer_apart : Apart (S.gdt, gdtBytes M) (S.idtPointer, pointerBytes M) ∧
    Apart (S.tss, tssBytes) (S.idtPointer, pointerBytes M) := by
  have h := S.apart
  simp only [List.pairwise_cons, List.mem_cons] at h
  exact ⟨h.1 _ (.inr (.inr (.inr (.inl rfl)))), h.2.2.1 _ (.inr (.inl rfl))⟩

/-- `a` is in the GDT, the TSS or the IDT. -/
def InTables (a : ℕ) : Prop :=
  (S.gdt ≤ a ∧ a < S.gdt + gdtBytes M) ∨ (S.tss ≤ a ∧ a < S.tss + tssBytes) ∨
    (S.idt ≤ a ∧ a < S.idt + idtBytes M)

end Symbols

/-- `set_kernel_stack`: `rsp0` and `esp0` are both at the offset 4. -/
def setKernelStack {M : Mode} (S : Symbols M) (mem : Bytes) (stack : ℕ) : Bytes :=
  put mem (S.tss + 4) (encodeLe M.wordBytes stack)

/-! ### The tables installed -/

/-- Flat code. -/
def codeSegment (M : Mode) (dpl : ℕ) : Descriptor where
  base := 0
  limit := 0xFFFFFFFF
  kind := 26
  dpl
  present := true
  long := M = .long
  big := M = .legacy

theorem codeSegment_not_conforming (M : Mode) (dpl : ℕ) : ¬ (codeSegment M dpl).isConforming :=
  (by decide : ¬ 28 ≤ 26)

/-- Flat data. -/
def dataSegment (dpl : ℕ) : Descriptor where
  base := 0
  limit := 0xFFFFFFFF
  kind := 18
  dpl
  present := true
  long := false
  big := true

/-- The stack segment of the kernel after an entry from another ring; in 64-bit mode it is null. -/
def kernelStackSegment : Mode → ℕ
  | .legacy => 0x10
  | .long => 0

/-- Entries 1 to 4 of the GDT. -/
def segment (M : Mode) (i : ℕ) : Descriptor :=
  if i % 2 = 1 then codeSegment M ((i - 1) / 2 * 3) else dataSegment ((i - 1) / 2 * 3)

/-- The privilege that may call a vector. -/
def callable (v : ℕ) : ℕ := if v = 0x80 then 3 else 0

/-- The GDT that is loaded has the four segments, and no others. -/
structure HasSegments (M : Mode) (T : Tables) (mem : Bytes) : Prop where
  limit : T.gdtLimit = gdtBytes M - 1
  segments : ∀ i, 1 ≤ i → i ≤ 4 → descriptorAt mem (T.gdt + 8 * i) = segment M i
  system : ∀ i, 5 ≤ i → 8 * i + 8 ≤ gdtBytes M → (descriptorAt mem (T.gdt + 8 * i)).kind < 16

namespace HasSegments

variable {M : Mode} {T : Tables} {mem mem' : Bytes}

theorem gdtBytes_le (M : Mode) : 48 ≤ gdtBytes M := by cases M <;> decide

theorem lookup (h : HasSegments M T mem) (i rpl : ℕ) (h₁ : 1 ≤ i) (h₄ : i ≤ 4) (hrpl : rpl < 4) :
    T.lookup mem (8 * i + rpl) = some (segment M i) := by
  have hldt : ∀ i ≤ 4, ∀ rpl < 4, (8 * i + rpl).testBit 2 = false := by decide
  have hlim := h.limit
  have hbytes := gdtBytes_le M
  rw [lookup_eq (by omega) (hldt i h₄ rpl hrpl) (by omega),
    show (8 * i + rpl) / 8 * 8 = 8 * i by omega, h.segments i h₁ h₄]

/-- What a selector can name. -/
theorem lookup_cases (h : HasSegments M T mem) {sel : ℕ} {d : Descriptor}
    (hd : T.lookup mem sel = some d) : sel.testBit 2 = false ∧ 1 ≤ sel / 8 ∧
      (sel / 8 ≤ 4 ∧ d = segment M (sel / 8) ∨ 5 ≤ sel / 8 ∧ d.kind < 16) := by
  rw [Tables.lookup] at hd
  split at hd
  · cases hd
  · rename_i hsel
    obtain rfl := Option.some.inj hd
    obtain ⟨hnull, hldt, hlim⟩ : sel / 4 ≠ 0 ∧ ¬ sel.testBit 2 ∧
        ¬ T.gdtLimit < sel / 8 * 8 + 7 := by
      simpa only [not_or] using hsel
    have hldt' : sel / 4 % 2 = 0 := by
      rw [Nat.testBit_eq_decide_div_mod_eq, decide_eq_true_eq] at hldt
      omega
    have hbytes := gdtBytes_le M
    rw [h.limit] at hlim
    rw [Nat.mul_comm (sel / 8)]
    refine ⟨by simpa using hldt, by omega, ?_⟩
    by_cases h₄ : sel / 8 ≤ 4
    · exact .inl ⟨h₄, h.segments _ (by omega) h₄⟩
    · exact .inr ⟨by omega, h.system _ (by omega) (by omega)⟩

/-- The kernel's code, as a far jump or a gate goes there. -/
theorem target (h : HasSegments M T mem) (cpl : ℕ) :
    T.target M mem cpl 0x08 = .ok (codeSegment M 0) := by
  refine target_eq (h.lookup 1 0 (by decide) (by decide) (by decide)) ?_
    (Nat.zero_le _) rfl ?_
  · exact (by decide : 24 ≤ 26)
  · rintro rfl
    exact ⟨rfl, rfl⟩

theorem kernelData (h : HasSegments M T mem) : T.lookup mem 0x10 = some (dataSegment 0) :=
  h.lookup 2 0 (by decide) (by decide) (by decide)

theorem loadData (h : HasSegments M T mem) : T.loadData mem 0 0x10 = .ok 0x10 :=
  loadData_eq h.kernelData (by decide) (by decide) rfl

theorem loadStack (h : HasSegments M T mem) : T.loadStack mem 0 0x10 = .ok 0x10 :=
  loadStack_eq h.kernelData (by decide) rfl (.inl rfl) rfl

theorem congr (h : HasSegments M T mem)
    (hmem : ∀ a, T.gdt + 8 ≤ a → a < T.gdt + gdtBytes M → mem' a = mem a) :
    HasSegments M T mem' where
  limit := h.limit
  segments i h₁ h₄ := by
    have hbytes := gdtBytes_le M
    rw [descriptorAt_congr fun a ha hb => hmem a (by omega) (by omega)]
    exact h.segments i h₁ h₄
  system i h₅ hi := by
    rw [descriptorAt_congr fun a ha hb => hmem a (by omega) (by omega)]
    exact h.system i h₅ hi

/-- The processor marks one. -/
theorem accessed (h : HasSegments M T mem) {i : ℕ} (h₁ : 1 ≤ i) (h₄ : i ≤ 4) :
    HasSegments M T (markAccessed mem (T.gdt + 8 * i)) where
  limit := h.limit
  segments j hj₁ hj₄ := by
    by_cases e : j = i
    · subst e
      have hseg := h.segments j hj₁ hj₄
      rw [descriptorAt_accessed, hseg]
      rw [hseg, segment]
      split
      · exact (by decide : 16 ≤ 26)
      · exact (by decide : 16 ≤ 18)
    · rw [descriptorAt_congr fun a ha hb => markAccessed_other (by omega)]
      exact h.segments j hj₁ hj₄
  system j hj₅ hj := by
    rw [descriptorAt_congr fun a ha hb => markAccessed_other (by omega)]
    exact h.system j hj₅ hj

theorem kindOf_busy : ∀ b : BitVec 8, kindOf b.toNat < 16 → kindOf (b ||| 2).toNat < 16 := by
  decide +kernel

/-- `ltr` marks the task state. -/
theorem busy (h : HasSegments M T mem) :
    HasSegments M T (markBusy mem (T.gdt + 40)) where
  limit := h.limit
  segments i h₁ h₄ := by
    rw [descriptorAt_congr fun a ha hb => markBusy_other (by omega)]
    exact h.segments i h₁ h₄
  system i h₅ hi := by
    have hone : ∀ (m : Bytes) a, (descriptorAt m a).kind = kindOf (m (a + 5)).toNat := fun m a =>
      congrArg kindOf (Nat.add_zero _)
    by_cases e : i = 5
    · subst e
      have hself := h.system 5 h₅ hi
      rw [hone] at hself ⊢
      rw [markBusy, Function.update_self]
      exact kindOf_busy _ hself
    · rw [descriptorAt_congr fun a ha hb => markBusy_other (by omega)]
      exact h.system i h₅ hi

/-- `ltr` at the end of `init_gdt`, after the marks that `gdt_flush` leaves. -/
theorem ltr (h : HasSegments M T mem) {tss : ℕ}
    (hbase : taskBase M mem (T.gdt + 40) = tss)
    (hlimit : (descriptorAt mem (T.gdt + 40)).limit = 103)
    (hkind : (descriptorAt mem (T.gdt + 40)).kind = 9)
    (hpresent : (descriptorAt mem (T.gdt + 40)).present = true) : ∃ mem',
    T.ltr M (markAccessed (markAccessed mem (T.gdt + 0x10)) (T.gdt + 0x08)) 0x28 =
        .ok ({ T with tss, tssLimit := 103 }, mem') ∧
      HasSegments M T mem' ∧ ∀ a, a < T.gdt ∨ T.gdt + 48 ≤ a → mem' a = mem a := by
  have hmarked : ∀ a, a ≠ T.gdt + 0x10 + 5 → a ≠ T.gdt + 0x08 + 5 →
      markAccessed (markAccessed mem (T.gdt + 0x10)) (T.gdt + 0x08) a = mem a := fun a h₁ h₂ =>
    (markAccessed_other h₂).trans (markAccessed_other h₁)
  have hsegments := (h.accessed (i := 2) (by decide) (by decide)).accessed (i := 1) (by decide)
    (by decide)
  simp only [Nat.reduceMul] at hsegments
  generalize markAccessed (markAccessed mem (T.gdt + 0x10)) (T.gdt + 0x08) = marked at *
  have hread : descriptorAt marked (T.gdt + 40) = descriptorAt mem (T.gdt + 40) :=
    descriptorAt_congr fun a h₁ h₂ => hmarked a (by omega) (by omega)
  have htask : taskBase M marked (T.gdt + 40) = tss := by
    have hupper : leAt marked (T.gdt + 40 + 8) 4 = leAt mem (T.gdt + 40 + 8) 4 :=
      leAt_congr fun a h₁ h₂ => hmarked a (by omega) (by omega)
    rw [← hbase]
    cases M with
    | legacy => simp only [taskBase, hread]
    | long => simp only [taskBase, hread, hupper]
  have hltr : T.ltr M marked 0x28 = _ := ltr_eq (by decide) (by decide)
    (by rw [h.limit]; cases M <;> decide) hread hkind hpresent
  simp only [Nat.reduceDiv, Nat.reduceMul, htask, hlimit] at hltr
  refine ⟨_, hltr, hsegments.busy, fun a ha => ?_⟩
  exact (markBusy_other (by omega)).trans (hmarked a (by omega) (by omega))

end HasSegments

namespace Symbols

variable {M : Mode} (S : Symbols M)

/-- The stub of a vector. -/
def stub (v : ℕ) : Option ℕ :=
  if v = 32 then some S.irq0Stub
  else if v = 33 then some S.irq1Stub
  else if v = 0x80 then some S.syscallStub
  else none

/-- The gate of a vector. -/
def gate (v : ℕ) : Gate :=
  match S.stub v with
  | some stub => ⟨stub, 0x08, 0, 14, callable v, true⟩
  | none => ⟨0, 0, 0, 0, 0, false⟩

theorem stub_low {v stub : ℕ} (h : S.stub v = some stub) : stub < 2 ^ 32 := by
  obtain ⟨h₀, h₁, h₂⟩ := S.stubs_low
  rw [Symbols.stub] at h
  split at h
  · exact Option.some.inj h ▸ h₀
  split at h
  · exact Option.some.inj h ▸ h₁
  split at h
  · exact Option.some.inj h ▸ h₂
  · cases h

/-- What enters the kernel: the stubs only, in ring 0 and with interrupts masked, and on the stack
of the TSS from another ring. -/
def entered (stack : ℕ) (p : Point) (v : ℕ) (cause : Cause) : Option Entered :=
  match S.stub v with
  | none => none
  | some stub =>
      if cause = .software ∧ callable v < p.cpl then none
      else
        let sp := if 0 < p.cpl then stack else p.sp
        some {
          ip := stub
          cs := 0x08
          ss := if 0 < p.cpl then kernelStackSegment M else p.ss
          sp := if M = .long then sp - sp % 16 else sp
          pushed := (if M = .long ∨ 0 < p.cpl then [p.ss, p.sp, p.flags, p.cs, p.ip]
            else [p.flags, p.cs, p.ip]) ++ cause.code.toList
          masks := true }

theorem entered_some {stack v stub : ℕ} {p : Point} {cause : Cause} (hstub : S.stub v = some stub)
    (hcall : ¬ (cause = .software ∧ callable v < p.cpl)) : S.entered stack p v cause = some {
      ip := stub
      cs := 0x08
      ss := if 0 < p.cpl then kernelStackSegment M else p.ss
      sp := if M = .long then (if 0 < p.cpl then stack else p.sp) -
        (if 0 < p.cpl then stack else p.sp) % 16 else if 0 < p.cpl then stack else p.sp
      pushed := (if M = .long ∨ 0 < p.cpl then [p.ss, p.sp, p.flags, p.cs, p.ip]
        else [p.flags, p.cs, p.ip]) ++ cause.code.toList
      masks := true } := by
  simp only [entered, hstub]
  exact if_neg hcall

end Symbols

/-- The tables as the kernel means them, with `stack` in the TSS. -/
structure Installed (M : Mode) (S : Symbols M) (T : Tables) (stack : ℕ) (mem : Bytes) : Prop where
  gdt : T.gdt = S.gdt
  idt : T.idt = S.idt ∧ T.idtLimit = idtBytes M - 1
  tss : T.tss = S.tss ∧ T.tssLimit = tssBytes - 1
  segments : HasSegments M T mem
  gates : ∀ v < 256, gateAt M mem (S.idt + M.gateBytes * v) = S.gate v
  rsp0 : leAt mem (S.tss + 4) M.wordBytes = stack
  stack_low : stack < 2 ^ 32
  ss0 : M = .legacy → leAt mem (S.tss + 8) 2 = 0x10

namespace Installed

variable {M : Mode} {S : Symbols M} {T : Tables} {stack : ℕ} {mem mem' : Bytes}

theorem innerStack (h : Installed M S T stack mem) :
    T.innerStack M mem 0 = .ok (kernelStackSegment M, stack) := by
  obtain ⟨htss, hlim⟩ := h.tss
  have hstack : leAt mem (T.tss + 4 + 8 * 0) M.wordBytes = stack := by
    rw [htss]
    exact h.rsp0
  cases M with
  | legacy =>
      have hss0 : leAt mem (T.tss + 8 + 8 * 0) 2 = 0x10 := by
        rw [htss]
        exact h.ss0 rfl
      exact innerStack_legacy (by rw [hlim]; decide) hstack hss0 h.segments.kernelData rfl rfl
        (.inl rfl) rfl
  | long =>
      have hlow := h.stack_low
      exact innerStack_long (by rw [hlim]; decide) hstack (.inl (by omega))

theorem entryStack (h : Installed M S T stack mem) (p : Point) {g : Gate} (hg : g.stack = 0) :
    T.entryStack M mem p g (codeSegment M 0) =
      .ok (if 0 < p.cpl then kernelStackSegment M else p.ss,
        if 0 < p.cpl then stack else p.sp) := by
  by_cases hp : 0 < p.cpl
  · rw [entryStack_inner hg (codeSegment_not_conforming M 0) hp, if_pos hp, if_pos hp]
    exact h.innerStack
  · rw [entryStack_same hg (Nat.not_lt.mp hp), if_neg hp, if_neg hp]

/-- A vector with a stub, called from where it may be. -/
theorem deliver_stub (h : Installed M S T stack mem) {p : Point} {v stub : ℕ} {cause : Cause}
    (hv : S.stub v = some stub) (hsoft : cause = .software → p.cpl ≤ callable v) :
    ∃ e, S.entered stack p v cause = some e ∧ T.deliver M mem p v cause = .ok e := by
  have hlt : v < 256 := by
    by_contra hge
    rw [Symbols.stub, if_neg (by omega), if_neg (by omega), if_neg (by omega)] at hv
    cases hv
  have hgate : S.gate v = ⟨stub, 0x08, 0, 14, callable v, true⟩ := by
    rw [Symbols.gate, hv]
  have hlow : stub < 2 ^ 32 := S.stub_low hv
  have hg : T.gate M mem p.cpl v cause = .ok ⟨stub, 0x08, 0, 14, callable v, true⟩ := by
    refine gate_eq ?_ (hgate ▸ h.idt.1 ▸ h.gates v hlt) (.inl rfl) hsoft rfl
    rw [h.idt.2, idtBytes]
    cases M <;> simp only [Mode.gateBytes] <;> omega
  refine ⟨_, ?_, deliver_eq hg (h.segments.target p.cpl) (h.entryStack p rfl)
    (codeSegment_not_conforming M 0) ?_ fun _ => ?_⟩
  · rw [S.entered_some hv fun hd => Nat.not_le.mpr hd.2 (hsoft hd.1)]
    simp only [codeSegment, Nat.reduceDiv, Nat.reduceMul, Nat.add_zero, decide_true]
    congr
  · cases M with
    | legacy => exact trivial
    | long => exact .inl (by dsimp only; omega)
  · have hlimit : (codeSegment M 0).limit = 2 ^ 32 - 1 := rfl
    dsimp only
    omega

/-- Any other vector, or any other caller. -/
theorem deliver_other (h : Installed M S T stack mem) {p : Point} {v : ℕ} {cause : Cause}
    (hv : S.stub v = none ∨ cause = .software ∧ callable v < p.cpl) :
    T.deliver M mem p v cause = .error 13 := by
  refine deliver_error ?_
  rcases hv with hv | ⟨rfl, hdpl⟩
  · refine gate_absent fun hlim => ?_
    have hlt : v < 256 := by
      rw [h.idt.2, idtBytes] at hlim
      cases M <;> simp only [Mode.gateBytes] at hlim <;> omega
    rw [h.idt.1, h.gates v hlt, Symbols.gate, hv]
    exact (by decide : ¬ (0 = 14 ∨ 0 = 15))
  · by_cases hlt : v < 256
    · cases hv : S.stub v with
      | none =>
          refine gate_absent fun _ => ?_
          rw [h.idt.1, h.gates v hlt, Symbols.gate, hv]
          exact (by decide : ¬ (0 = 14 ∨ 0 = 15))
      | some stub =>
          refine gate_denied (h.idt.1 ▸ h.gates v hlt) ?_
          rw [Symbols.gate, hv]
          exact hdpl
    · refine gate_absent fun hlim => ?_
      rw [h.idt.2, idtBytes] at hlim
      cases M <;> simp only [Mode.gateBytes] at hlim <;> omega

/-- **The stubs are the only way in.** -/
theorem serve_installed (h : Installed M S T stack mem) (p : Point) (v : ℕ) (cause : Cause) :
    T.serve M mem p v cause = S.entered stack p v cause := by
  by_cases hv : S.stub v = none ∨ cause = .software ∧ callable v < p.cpl
  · -- the fault finds no gate, and neither does the double fault
    have hnone : S.entered stack p v cause = none := by
      unfold Symbols.entered
      split
      · rfl
      · rename_i stub hstub
        exact if_pos (hv.resolve_left fun h => by cases h.symm.trans hstub)
    rw [hnone]
    refine serve_unhandled (fun v' code hv' => ⟨13, h.deliver_other (.inl ?_)⟩)
      (h.deliver_other hv) (.inr (by decide))
    have hlt : v' < 32 := by
      simp only [Contributory] at hv'
      omega
    rw [Symbols.stub, if_neg (by omega), if_neg (by omega), if_neg (by omega)]
  · obtain ⟨hstub, hcall⟩ := not_or.mp hv
    obtain ⟨stub, hstub⟩ := Option.ne_none_iff_exists'.mp hstub
    have hsoft : cause = .software → p.cpl ≤ callable v := fun hsoft =>
      Nat.not_lt.mp fun hd => hcall ⟨hsoft, hd⟩
    obtain ⟨e, hentered, hdeliver⟩ := h.deliver_stub hstub hsoft
    rw [hentered, serve_of_deliver hdeliver]

/-- The return into a task. -/
theorem returnTo_user (h : Installed M S T stack mem) {p : Point} (hcs : p.cs = 0x1B)
    (hss : p.ss = 0x23) (hip : M.Canonical p.ip) (hlow : M = .legacy → p.ip < 2 ^ 32) :
    T.returnTo M mem 0 p = .ok p := by
  have hcpl : p.cpl = 3 := by rw [Point.cpl, hcs]
  refine returnTo_outer (d := codeSegment M 3) (s := dataSegment 3) ?_ (by decide : 24 ≤ 26)
    (codeSegment_not_conforming M 3) (by omega) hcpl.symm rfl hip
    (fun hM => ?_) ?_ (by rw [hss, hcpl]) hcpl.symm (.inl rfl) rfl
  · rw [hcs]
    exact h.segments.lookup 3 3 (by decide) (by decide) (by decide)
  · have hlimit : (codeSegment M 3).limit = 2 ^ 32 - 1 := rfl
    have hip := hlow hM
    omega
  · rw [hss]
    exact h.segments.lookup 4 3 (by decide) (by decide) (by decide)

/-! #### Stores -/

/-- A store off the tables. -/
theorem congr (h : Installed M S T stack mem) (hmem : ∀ a, S.InTables a → mem' a = mem a) :
    Installed M S T stack mem' where
  gdt := h.gdt
  idt := h.idt
  tss := h.tss
  segments := h.segments.congr fun a ha hb => hmem a (.inl (by rw [← h.gdt]; omega))
  gates v hv := by
    rw [gateAt_congr fun a ha hb => hmem a (.inr (.inr ⟨by omega, ?_⟩))]
    · exact h.gates v hv
    · cases M <;> simp only [idtBytes, Mode.gateBytes] at * <;> omega
  rsp0 := by
    rw [leAt_congr fun a ha hb => hmem a (.inr (.inl ⟨by omega, ?_⟩))]
    · exact h.rsp0
    · cases M <;> simp only [tssBytes, Mode.wordBytes] at * <;> omega
  stack_low := h.stack_low
  ss0 hM := by
    rw [leAt_congr fun a ha hb => hmem a (.inr (.inl ⟨by omega, by simp only [tssBytes]; omega⟩))]
    exact h.ss0 hM

/-- `set_kernel_stack` puts another stack in. -/
theorem setKernelStack (h : Installed M S T stack mem) {stack' : ℕ} (hlow : stack' < 2 ^ 32) :
    Installed M S T stack' (setKernelStack S mem stack') := by
  have hlen : (encodeLe M.wordBytes stack').length = M.wordBytes := length_encodeLe _ _
  have hword : M.wordBytes ≤ 8 := by cases M <;> decide
  have hpow : 2 ^ 32 ≤ 256 ^ M.wordBytes := by cases M <;> decide
  obtain ⟨hgt, hti⟩ := S.tss_apart
  have hother : ∀ a, a < S.tss + 4 ∨ S.tss + 4 + M.wordBytes ≤ a →
      Core.setKernelStack S mem stack' a = mem a := fun a ha => put_outside (by rwa [hlen])
  refine ⟨h.gdt, h.idt, h.tss, h.segments.congr fun a ha hb => hother a ?_, fun v hv => ?_, ?_,
    hlow, fun hM => ?_⟩
  · rw [h.gdt] at ha hb
    simp only [Apart, tssBytes] at hgt
    omega
  · rw [gateAt_congr fun a ha hb => hother a ?_]
    · exact h.gates v hv
    · have hgates : M.gateBytes * v + M.gateBytes ≤ idtBytes M := by
        cases M <;> simp only [idtBytes, Mode.gateBytes] <;> omega
      simp only [Apart, tssBytes] at hti
      omega
  · rw [Core.setKernelStack, leAt_of_holds (holds_put _),
      Nat.mod_eq_of_lt (Nat.lt_of_lt_of_le hlow hpow)]
  · rw [leAt_congr fun a ha hb => hother a ?_]
    · exact h.ss0 hM
    · subst hM
      simp only [Mode.wordBytes]
      omega

/-- The processor marks a segment it loads. -/
theorem accessed (h : Installed M S T stack mem) {i : ℕ} (h₁ : 1 ≤ i) (h₄ : i ≤ 4) :
    Installed M S T stack (markAccessed mem (S.gdt + 8 * i)) := by
  have hbytes : 48 ≤ gdtBytes M := by cases M <;> decide
  obtain ⟨hgt, -⟩ := S.tss_apart
  have hgi := S.gdt_idt_apart
  refine ⟨h.gdt, h.idt, h.tss, h.gdt ▸ h.segments.accessed h₁ h₄, fun v hv => ?_, ?_, h.stack_low,
    fun hM => ?_⟩
  · rw [gateAt_congr fun a ha hb => markAccessed_other ?_]
    · exact h.gates v hv
    · have hgates : M.gateBytes * v + M.gateBytes ≤ idtBytes M := by
        cases M <;> simp only [idtBytes, Mode.gateBytes] <;> omega
      simp only [Apart] at hgi
      omega
  · rw [leAt_congr fun a ha hb => markAccessed_other ?_]
    · exact h.rsp0
    · have hword : M.wordBytes ≤ 8 := by cases M <;> decide
      simp only [Apart, tssBytes] at hgt
      omega
  · rw [leAt_congr fun a ha hb => markAccessed_other ?_]
    · exact h.ss0 hM
    · simp only [Apart, tssBytes] at hgt
      omega

end Installed

/-! ### A kernel that schedules -/

/-- The state of the scheduler, and the memory. -/
structure TableState where
  sched : Sched
  mem : Bytes

/-- What happens to the tables, or beside them. -/
inductive TableEvent where
  | create | exit | schedule | accessed | store

/-- The store of `schedule` to the TSS, by `set_kernel_stack`. -/
def scheduleTss {M : Mode} (S : Symbols M) (TT : TaskTable) (s : Sched) (sp : ℕ) (mem : Bytes) :
    Bytes :=
  if s.taskCount = 0 then mem
  else
    let s := saveStackPointer s sp
    match findActive s s.taskCount (s.currentTask.elim 0 (· + 1)) with
    | some t => setKernelStack S mem (TT.kernelStackTop t)
    | none => mem

/-- One event: a call of the scheduler, a segment marked as used, or a store that spares the
tables. -/
inductive TableStep {R : Type} {w : ℕ} (A : Arch R w) {M : Mode} (S : Symbols M) (TT : TaskTable) :
    TableState → TableEvent → TableState → Prop where
  | create {k : TableState} (words : ℕ → BitVec w) (entryPoint : BitVec w) :
      TableStep A S TT k .create ⟨(taskCreateUser A TT k.sched words entryPoint).1, k.mem⟩
  | exit {k : TableState} : TableStep A S TT k .exit ⟨taskExit k.sched, k.mem⟩
  | schedule {k : TableState} (sp : ℕ) :
      TableStep A S TT k .schedule
        ⟨(Core.schedule TT k.sched sp).2, scheduleTss S TT k.sched sp k.mem⟩
  | accessed {k : TableState} {i : ℕ} (h₁ : 1 ≤ i) (h₄ : i ≤ 4) :
      TableStep A S TT k .accessed ⟨k.sched, markAccessed k.mem (S.gdt + 8 * i)⟩
  | store {k : TableState} {mem : Bytes} (hmem : ∀ a, S.InTables a → mem a = k.mem a) :
      TableStep A S TT k .store ⟨k.sched, mem⟩

/-- The tables are installed, with the stack of the current task. -/
structure Kept {M : Mode} (S : Symbols M) (TT : TaskTable) (T : Tables) (k : TableState) :
    Prop where
  installed : Installed M S T k.sched.tssStack k.mem
  count : k.sched.taskCount ≤ TT.maxTasks
  current : ∀ c, k.sched.currentTask = some c → k.sched.tssStack = TT.kernelStackTop c

section Kept

variable {M : Mode} {S : Symbols M} {TT : TaskTable} {T : Tables} {k k' : TableState}

/-- The stacks of the table are below 4 GiB. -/
def TaskTable.Low (TT : TaskTable) : Prop := TT.base + 8224 * TT.maxTasks < 2 ^ 32

instance (TT : TaskTable) : Decidable TT.Low := inferInstanceAs (Decidable (_ < _))

theorem TaskTable.Low.kernelStackTop_lt (hlow : TT.Low) {t : ℕ} (ht : t < TT.maxTasks) :
    TT.kernelStackTop t < 2 ^ 32 := by
  simp only [TaskTable.Low, TaskTable.kernelStackTop, TaskTable.kernelStack] at *
  omega

theorem Kept.schedule (h : Kept S TT T k) (hlow : TT.Low) (sp : ℕ) :
    Kept S TT T ⟨(Core.schedule TT k.sched sp).2, scheduleTss S TT k.sched sp k.mem⟩ := by
  have hcount := saveStackPointer_taskCount k.sched sp
  have hcurrent := saveStackPointer_currentTask k.sched sp
  have htss : (saveStackPointer k.sched sp).tssStack = k.sched.tssStack := by
    rw [saveStackPointer]
    split <;> rfl
  unfold Core.schedule scheduleTss
  split
  · exact h
  · rename_i hne
    dsimp only
    cases ht : findActive (saveStackPointer k.sched sp) (saveStackPointer k.sched sp).taskCount
      ((saveStackPointer k.sched sp).currentTask.elim 0 (· + 1)) with
    | some t =>
        have hlt := (findActive_some ht).2 (by omega)
        refine ⟨h.installed.setKernelStack (hlow.kernelStackTop_lt ?_), ?_, fun c hc => ?_⟩
        · exact Nat.lt_of_lt_of_le (hcount ▸ hlt) h.count
        · exact hcount ▸ h.count
        · obtain rfl := Option.some.inj hc
          rfl
    | none =>
        refine ⟨htss ▸ h.installed, hcount ▸ h.count, fun c hc => ?_⟩
        rw [htss]
        exact h.current c (hcurrent ▸ hc)

/-- **The tables stay.** -/
theorem Kept.step {R : Type} {w : ℕ} {A : Arch R w} (hlow : TT.Low) (h : Kept S TT T k)
    {e : TableEvent} (hstep : TableStep A S TT k e k') : Kept S TT T k' := by
  cases hstep with
  | create words entryPoint =>
      by_cases hlt : k.sched.taskCount < TT.maxTasks
      · rw [taskCreateUser_sched hlt]
        exact ⟨h.installed, hlt, h.current⟩
      · rw [taskCreateUser_full (Nat.not_lt.mp hlt)]
        exact h
  | exit =>
      have htss : (taskExit k.sched).tssStack = k.sched.tssStack := by
        rw [taskExit]
        split <;> rfl
      refine ⟨htss ▸ h.installed, taskExit_taskCount k.sched ▸ h.count, fun c hc => ?_⟩
      exact htss.trans (h.current c (taskExit_currentTask k.sched ▸ hc))
  | schedule sp => exact h.schedule hlow sp
  | accessed h₁ h₄ => exact ⟨h.installed.accessed h₁ h₄, h.count, h.current⟩
  | store hmem => exact ⟨h.installed.congr hmem, h.count, h.current⟩

end Kept

end ZeptoOS.Core
