import Mathlib.Tactic.IntervalCases
import ZeptoOS.Core.Tables

/-!
# X64 — Tables

`kernel/x64/gdt.c`, `gdt_flush.s`, `idt.c` and `kidt.s`: `init_gdt` and `idt_install`, as stores to
the memory and loads of the processor's registers.  A load that faults is an error.

`install_eq`: none of them faults, and they leave the tables that the kernel means.
-/

namespace ZeptoOS.X64
open Lib Lib.Protection ZeptoOS.Core

variable (S : Symbols .long)

/-- `gdt_set_gate` -/
def gdtSetGate (mem : Bytes) (index : ℕ) (access granularity : BitVec 8) : Bytes :=
  put mem (S.gdt + 8 * index) (GdtEntry.bytes ⟨0xFFFF, 0, 0, access, granularity, 0⟩)

/-- `write_tss` -/
def writeTss (mem : Bytes) : Bytes :=
  let base := S.tss
  let limit := tssBytes - 1
  let mem := put mem S.tss (List.replicate tssBytes 0)
  let mem := put mem (S.tss + 102) (encodeLe 2 tssBytes)
  let mem := put mem (S.gdt + 8 * 5) (GdtEntry.bytes {
    limitLow := .ofNat 16 (limit &&& 0xFFFF)
    baseLow := .ofNat 16 (base &&& 0xFFFF)
    baseMiddle := .ofNat 8 (base >>> 16 &&& 0xFF)
    access := 0x89
    granularity := .ofNat 8 (limit >>> 16 &&& 0x0F)
    baseHigh := .ofNat 8 (base >>> 24 &&& 0xFF) })
  put mem (S.gdt + 8 * 6) (GdtEntry.bytes {
    limitLow := .ofNat 16 (base >>> 32 &&& 0xFFFF)
    baseLow := .ofNat 16 (base >>> 48 &&& 0xFFFF)
    baseMiddle := 0
    access := 0
    granularity := 0
    baseHigh := 0 })

/-- `gdt_flush`: `ds`, `es` and `ss` get the kernel's data and `retfq` its code, which the processor
marks as used. -/
def gdtFlush (T : Tables) (mem : Bytes) (pointer : ℕ) : Except ℕ (Tables × Bytes) := do
  let T := T.lgdt .long mem pointer
  let _ ← T.loadData mem 0 0x10
  let _ ← T.loadData mem 0 0x10
  let _ ← T.loadStack mem 0 0x10
  let _ ← T.target .long mem 0 0x08
  return (T, markAccessed (markAccessed mem (T.gdt + 0x10)) (T.gdt + 0x08))

/-- The stores of `init_gdt` before it calls `gdt_flush`. -/
def gdtStores (mem : Bytes) : Bytes :=
  let mem := gdtSetGate S mem 0 0 0
  let mem := gdtSetGate S mem 1 0x9A 0xAF
  let mem := gdtSetGate S mem 2 0x92 0xCF
  let mem := gdtSetGate S mem 3 0xFA 0xAF
  let mem := gdtSetGate S mem 4 0xF2 0xCF
  let mem := writeTss S mem
  put mem S.gdtPointer (encodeLe 2 (gdtBytes .long - 1) ++ encodeLe 8 S.gdt)

/-- `init_gdt`, with `tss_flush` at its end. -/
def initGdt (T : Tables) (mem : Bytes) : Except ℕ (Tables × Bytes) := do
  let (T, mem) ← gdtFlush T (gdtStores S mem) S.gdtPointer
  T.ltr .long mem 0x28

/-- `struct idt_entry` -/
structure IdtEntry where
  offsetLow : BitVec 16
  selector : BitVec 16
  ist : BitVec 8
  flags : BitVec 8
  offsetMiddle : BitVec 16
  offsetHigh : BitVec 32
  zero : BitVec 32

/-- The entry in memory; the structure is packed. -/
def IdtEntry.bytes (e : IdtEntry) : List (BitVec 8) :=
  encodeLe 2 e.offsetLow.toNat ++ encodeLe 2 e.selector.toNat ++ [e.ist, e.flags] ++
    encodeLe 2 e.offsetMiddle.toNat ++ encodeLe 4 e.offsetHigh.toNat ++ encodeLe 4 e.zero.toNat

@[simp] theorem IdtEntry.length_bytes (e : IdtEntry) : e.bytes.length = 16 := by
  simp [bytes]

/-- What `idt_set_gate` assigns. -/
def idtEntry (base : ℕ) (selector : BitVec 16) (flags : BitVec 8) : IdtEntry where
  offsetLow := .ofNat 16 (base &&& 0xFFFF)
  selector
  ist := 0
  flags
  offsetMiddle := .ofNat 16 (base >>> 16 &&& 0xFFFF)
  offsetHigh := .ofNat 32 (base >>> 32 &&& 0xFFFFFFFF)
  zero := 0

/-- `idt_set_gate` -/
def idtSetGate (mem : Bytes) (index base : ℕ) (selector : BitVec 16) (flags : BitVec 8) : Bytes :=
  put mem (S.idt + 16 * index) (idtEntry base selector flags).bytes

/-- The loop of `idt_install`, over its first `i` turns. -/
def idtClear (mem : Bytes) : ℕ → Bytes
  | 0 => mem
  | i + 1 => idtSetGate S (idtClear mem i) i 0 0 0

/-- `idt_install` -/
def idtInstall (T : Tables) (mem : Bytes) : Tables × Bytes :=
  let mem := idtClear S mem 256
  let mem := idtSetGate S mem 32 S.irq0Stub 0x08 0x8E
  let mem := idtSetGate S mem 33 S.irq1Stub 0x08 0x8E
  let mem := idtSetGate S mem 0x80 S.syscallStub 0x08 0xEE
  let mem := put mem S.idtPointer (encodeLe 2 (idtBytes .long - 1) ++ encodeLe 8 S.idt)
  (T.lidt .long mem S.idtPointer, mem)

/-- What `kmain` does with the tables: `init_gdt` and then `idt_install`. -/
def installTables (T : Tables) (mem : Bytes) : Except ℕ (Tables × Bytes) := do
  let (T, mem) ← initGdt S T mem
  return idtInstall S T mem

/-! ### The GDT -/

variable {S}

/-- The array `gdt` after `init_gdt`. -/
def gdtEntries (S : Symbols .long) : ℕ → GdtEntry
  | 0 => ⟨0xFFFF, 0, 0, 0, 0, 0⟩
  | 1 => ⟨0xFFFF, 0, 0, 0x9A, 0xAF, 0⟩
  | 2 => ⟨0xFFFF, 0, 0, 0x92, 0xCF, 0⟩
  | 3 => ⟨0xFFFF, 0, 0, 0xFA, 0xAF, 0⟩
  | 4 => ⟨0xFFFF, 0, 0, 0xF2, 0xCF, 0⟩
  | 5 => ⟨.ofNat 16 (tssBytes - 1 &&& 0xFFFF), .ofNat 16 (S.tss &&& 0xFFFF),
      .ofNat 8 (S.tss >>> 16 &&& 0xFF), 0x89, .ofNat 8 ((tssBytes - 1) >>> 16 &&& 0x0F),
      .ofNat 8 (S.tss >>> 24 &&& 0xFF)⟩
  | _ => ⟨.ofNat 16 (S.tss >>> 32 &&& 0xFFFF), .ofNat 16 (S.tss >>> 48 &&& 0xFFFF), 0, 0, 0, 0⟩

theorem gdtStores_array (mem : Bytes) :
    HoldsArray (gdtStores S mem) S.gdt 8 7 fun i => (gdtEntries S i).bytes := by
  have hlen : ∀ i, (gdtEntries S i).bytes.length = 8 := fun i => GdtEntry.length_bytes _
  have hgt := S.tss_apart.1
  have hgp := S.gdt_gdtPointer_apart
  simp only [Apart, gdtBytes, tssBytes, pointerBytes] at hgt hgp
  have hflat := ((holdsArray_slice mem S.gdt 8 7).put (i := 0) (hlen 0)).put (i := 1) (hlen 1)
    |>.put (i := 2) (hlen 2) |>.put (i := 3) (hlen 3) |>.put (i := 4) (hlen 4)
  have htss := (hflat.put_off S.tss (List.replicate tssBytes 0) (by simp [tssBytes]; omega)).put_off
    (S.tss + 102) (encodeLe 2 tssBytes) (by simp; omega)
  have hall := ((htss.put (i := 5) (hlen 5)).put (i := 6) (hlen 6)).put_off S.gdtPointer
    (encodeLe 2 (gdtBytes .long - 1) ++ encodeLe 8 S.gdt) (by simp; omega)
  intro i hi
  obtain ⟨h, -⟩ := hall i hi
  refine ⟨?_, hlen i⟩
  interval_cases i <;> exact h

theorem gdtEntries_segment {i : ℕ} (h₁ : 1 ≤ i) (h₄ : i ≤ 4) :
    (gdtEntries S i).descriptor = segment .long i := by
  interval_cases i
  · exact (by decide : GdtEntry.descriptor ⟨0xFFFF, 0, 0, 0x9A, 0xAF, 0⟩ = segment .long 1)
  · exact (by decide : GdtEntry.descriptor ⟨0xFFFF, 0, 0, 0x92, 0xCF, 0⟩ = segment .long 2)
  · exact (by decide : GdtEntry.descriptor ⟨0xFFFF, 0, 0, 0xFA, 0xAF, 0⟩ = segment .long 3)
  · exact (by decide : GdtEntry.descriptor ⟨0xFFFF, 0, 0, 0xF2, 0xCF, 0⟩ = segment .long 4)

theorem gdtStores_segment (mem : Bytes) {i : ℕ} (h₁ : 1 ≤ i) (h₄ : i ≤ 4) :
    descriptorAt (gdtStores S mem) (S.gdt + 8 * i) = segment .long i := by
  rw [GdtEntry.descriptorAt_of_holds (gdtStores_array mem i (by omega)).1,
    gdtEntries_segment h₁ h₄]

theorem gdtStores_system (mem : Bytes) {i : ℕ} (h₅ : 5 ≤ i) (hi : 8 * i + 8 ≤ gdtBytes .long) :
    (descriptorAt (gdtStores S mem) (S.gdt + 8 * i)).kind < 16 := by
  have hlt : i < 7 := by
    simp only [gdtBytes] at hi
    omega
  rw [GdtEntry.descriptorAt_of_holds (gdtStores_array mem i hlt).1]
  interval_cases i
  · rw [(GdtEntry.descriptor_tss (e := gdtEntries S 5) rfl rfl (.inl rfl)).2.1]
    decide
  · exact (by decide : kindOf (0 : BitVec 8).toNat < 16)

/-- `rsp0` is zero. -/
theorem gdtStores_rsp0 (mem : Bytes) : leAt (gdtStores S mem) (S.tss + 4) 8 = 0 := by
  have hgt := S.tss_apart.1
  have htp := S.tss_gdtPointer_apart
  simp only [Apart, gdtBytes, tssBytes, pointerBytes] at hgt htp
  have hzero : ∀ mem' : Bytes,
      Holds (put mem' S.tss (List.replicate tssBytes 0)) (S.tss + 4) (encodeLe 8 0) := by
    intro mem'
    have hall : Holds (put mem' S.tss (List.replicate tssBytes 0)) S.tss
        (List.replicate 4 0 ++ (encodeLe 8 0 ++ List.replicate 92 0)) := holds_put _
    exact (holds_append.mp (holds_append.mp hall).2).1
  refine (leAt_of_holds ?_).trans (Nat.zero_mod _)
  unfold gdtStores writeTss
  refine ((((hzero _).put ?_).put ?_).put ?_).put ?_
  all_goals
    simp only [length_encodeLe, GdtEntry.length_bytes, List.length_append]
    omega

theorem gdtStores_pointer (mem : Bytes) : leAt (gdtStores S mem) S.gdtPointer 2 = 55 ∧
    leAt (gdtStores S mem) (S.gdtPointer + 2) 8 = S.gdt := by
  have hgdt : S.gdt < 256 ^ 8 := Nat.lt_of_le_of_lt (Nat.le_add_right _ _)
    (Nat.lt_of_le_of_lt S.gdt_low (by decide))
  obtain ⟨hlimit, hbase⟩ := holds_append.mp
    (show Holds (gdtStores S mem) S.gdtPointer
      (encodeLe 2 (gdtBytes .long - 1) ++ encodeLe 8 S.gdt) from holds_put _)
  exact ⟨leAt_of_holds hlimit, (leAt_of_holds hbase).trans (Nat.mod_eq_of_lt hgdt)⟩

/-- The descriptor of the TSS. -/
theorem gdtStores_tss (mem : Bytes) :
    (descriptorAt (gdtStores S mem) (S.gdt + 40)).base +
        2 ^ 32 * leAt (gdtStores S mem) (S.gdt + 48) 4 = S.tss ∧
      (descriptorAt (gdtStores S mem) (S.gdt + 40)).limit = 103 ∧
      (descriptorAt (gdtStores S mem) (S.gdt + 40)).kind = 9 ∧
      (descriptorAt (gdtStores S mem) (S.gdt + 40)).present = true := by
  obtain ⟨hlimit, htail⟩ := holds_append.mp (gdtStores_array (S := S) mem 6 (by decide)).1
  obtain ⟨hlow, hhigh⟩ := holds_append.mp hlimit
  rw [length_encodeLe] at hhigh
  have hle : ∀ {a : ℕ} (v : BitVec 16), Holds (gdtStores S mem) a (encodeLe 2 v.toNat) →
      leAt (gdtStores S mem) a 2 = v.toNat := fun v h =>
    (leAt_of_holds h).trans (Nat.mod_eq_of_lt v.isLt)
  have hupper : leAt (gdtStores S mem) (S.gdt + 48) 4 =
      S.tss >>> 32 % 2 ^ 16 + 2 ^ 16 * (S.tss >>> 48 % 2 ^ 16) := by
    rw [leAt_add _ _ 2 2, hle _ hlow, hle _ hhigh]
    simp only [gdtEntries, toNat_mask16]
    rfl
  have hlt := S.tss_low
  rw [GdtEntry.descriptorAt_of_holds (gdtStores_array mem 5 (by decide)).1, hupper]
  refine ⟨?_, GdtEntry.descriptor_tss rfl rfl (.inl rfl)⟩
  simp only [gdtEntries, GdtEntry.descriptor, toNat_mask16, toNat_mask8, Nat.shiftRight_eq_div_pow]
  simp only [tssBytes] at hlt
  omega

/-- `lgdt` finds the GDT. -/
theorem lgdt_eq (T : Tables) (mem : Bytes) : T.lgdt .long (gdtStores S mem) S.gdtPointer =
    { T with gdt := S.gdt, gdtLimit := 55 } := by
  obtain ⟨hlimit, hbase⟩ := gdtStores_pointer (S := S) mem
  rw [Tables.lgdt, hlimit]
  exact congrArg (fun b => { T with gdt := b, gdtLimit := 55 }) hbase

theorem hasSegments_stores (T : Tables) (mem : Bytes) :
    HasSegments .long { T with gdt := S.gdt, gdtLimit := 55 } (gdtStores S mem) :=
  ⟨rfl, fun _ => gdtStores_segment mem, fun _ => gdtStores_system mem⟩

/-- `init_gdt` does not fault. -/
theorem initGdt_eq (T : Tables) (mem : Bytes) : ∃ mem',
    initGdt S T mem = .ok ({ T with gdt := S.gdt, gdtLimit := 55, tss := S.tss, tssLimit := 103 },
      mem') ∧
    HasSegments .long { T with gdt := S.gdt, gdtLimit := 55 } mem' ∧
    leAt mem' (S.tss + 4) 8 = 0 := by
  obtain ⟨hbase, hlimit, hkind, hpresent⟩ := gdtStores_tss (S := S) mem
  have hsegments := hasSegments_stores (S := S) T mem
  obtain ⟨mem', hltr, hsegments', hother⟩ := hsegments.ltr hbase hlimit hkind hpresent
  refine ⟨mem', ?_, hsegments', ?_⟩
  · rw [initGdt, gdtFlush, lgdt_eq]
    simp only [bind, Except.bind, hsegments.loadData, hsegments.loadStack, hsegments.target]
    exact hltr
  · have hgt := S.tss_apart.1
    simp only [Apart, gdtBytes, tssBytes] at hgt
    rw [leAt_congr fun a h₁ h₂ => hother a (by dsimp only; omega)]
    exact gdtStores_rsp0 mem

/-! ### The IDT -/

theorem IdtEntry.gateAt_of_holds {mem : Bytes} {a : ℕ} {e : IdtEntry} (h : Holds mem a e.bytes) :
    gateAt .long mem a = {
      offset := e.offsetLow.toNat + 2 ^ 16 * e.offsetMiddle.toNat + 2 ^ 32 * e.offsetHigh.toNat
      selector := e.selector.toNat
      stack := e.ist.toNat % 8
      kind := e.flags.toNat % 32
      dpl := e.flags.toNat / 32 % 4
      present := e.flags.toNat.testBit 7 } := by
  simp only [IdtEntry.bytes, holds_append, holds_cons, List.length_append, length_encodeLe,
    List.length_cons, List.length_nil, Nat.reduceAdd, Nat.add_assoc] at h
  obtain ⟨⟨⟨⟨⟨hlow, hsel⟩, hist, hflags, -⟩, hmiddle⟩, hhigh⟩, -⟩ := h
  have hle : ∀ {x n v : ℕ}, Holds mem x (encodeLe n v) → v < 256 ^ n → leAt mem x n = v :=
    fun hx hv => (leAt_of_holds hx).trans (Nat.mod_eq_of_lt hv)
  have hone : ∀ x, leAt mem x 1 = (mem x).toNat := fun x => Nat.add_zero _
  simp only [gateAt, hone, hist, hflags, hle hlow e.offsetLow.isLt, hle hsel e.selector.isLt,
    hle hmiddle e.offsetMiddle.isLt, hle hhigh e.offsetHigh.isLt]

/-- The gate that `idt_set_gate` sets. -/
theorem gateAt_of_entry {mem : Bytes} {a base : ℕ} {selector : BitVec 16} {flags : BitVec 8}
    (hbase : base < 2 ^ 32) (h : Holds mem a (idtEntry base selector flags).bytes) :
    gateAt .long mem a = ⟨base, selector.toNat, 0, flags.toNat % 32, flags.toNat / 32 % 4,
      flags.toNat.testBit 7⟩ := by
  rw [IdtEntry.gateAt_of_holds h]
  have hoffset : base % 2 ^ 16 + 2 ^ 16 * (base / 2 ^ 16 % 2 ^ 16) +
      2 ^ 32 * (base / 2 ^ 32 % 2 ^ 32) = base := by
    omega
  simp only [idtEntry, toNat_mask16, toNat_mask32, Nat.shiftRight_eq_div_pow, hoffset]
  rfl

theorem idtClear_array (mem : Bytes) :
    ∀ n, HoldsArray (idtClear S mem n) S.idt 16 n fun _ => (idtEntry 0 0 0).bytes
  | 0 => fun _ h => absurd h (Nat.not_lt_zero _)
  | n + 1 => (idtClear_array mem n).snoc (IdtEntry.length_bytes _)

theorem idtClear_other {mem : Bytes} {a : ℕ} :
    ∀ {n}, a < S.idt ∨ S.idt + 16 * n ≤ a → idtClear S mem n a = mem a
  | 0, _ => rfl
  | n + 1, h => by
      rw [idtClear, idtSetGate, put_outside (by rw [IdtEntry.length_bytes]; omega)]
      exact idtClear_other (by omega)

/-- Off the IDT and its pointer, `idt_install` changes nothing. -/
theorem idtInstall_other {T : Tables} {mem : Bytes} {a : ℕ} (hi : a < S.idt ∨ S.idt + 4096 ≤ a)
    (hp : a < S.idtPointer ∨ S.idtPointer + 10 ≤ a) : (idtInstall S T mem).2 a = mem a := by
  have hset : ∀ (m : Bytes) (i base : ℕ) (selector : BitVec 16) (flags : BitVec 8), i < 256 →
      idtSetGate S m i base selector flags a = m a := fun m i base selector flags hlt => by
    rw [idtSetGate, put_outside (by rw [IdtEntry.length_bytes]; omega)]
  unfold idtInstall
  dsimp only
  rw [put_outside (by simp; omega), hset _ _ _ _ _ (by decide), hset _ _ _ _ _ (by decide),
    hset _ _ _ _ _ (by decide), idtClear_other (by omega)]

/-- `idt_install` sets the gates. -/
theorem idtInstall_gates (T : Tables) (mem : Bytes) {v : ℕ} (hv : v < 256) :
    gateAt .long (idtInstall S T mem).2 (S.idt + 16 * v) = S.gate v := by
  obtain ⟨h₀, h₁, h₂⟩ := S.stubs_low
  have hlen : ∀ base selector flags, (idtEntry base selector flags).bytes.length = 16 :=
    fun _ _ _ => IdtEntry.length_bytes _
  have hip := S.idt_idtPointer_apart
  simp only [Apart, idtBytes, Mode.gateBytes, pointerBytes] at hip
  have hall := ((((idtClear_array (S := S) mem 256).put (i := 32)
    (hlen S.irq0Stub 0x08 0x8E)).put (i := 33) (hlen S.irq1Stub 0x08 0x8E)).put (i := 0x80)
    (hlen S.syscallStub 0x08 0xEE)).put_off S.idtPointer
    (encodeLe 2 (idtBytes .long - 1) ++ encodeLe 8 S.idt) (by simp; omega)
  obtain ⟨h, -⟩ := hall v hv
  simp only [Function.update_apply] at h
  rw [Symbols.gate, Symbols.stub]
  by_cases e₂ : v = 0x80
  · subst e₂
    exact gateAt_of_entry h₂ h
  by_cases e₁ : v = 33
  · subst e₁
    exact gateAt_of_entry h₁ h
  by_cases e₀ : v = 32
  · subst e₀
    exact gateAt_of_entry h₀ h
  · rw [if_neg e₂, if_neg e₁, if_neg e₀] at h
    rw [if_neg e₀, if_neg e₁, if_neg e₂]
    exact gateAt_of_entry (by decide) h

/-- `lidt` finds the IDT. -/
theorem idtInstall_tables (T : Tables) (mem : Bytes) :
    (idtInstall S T mem).1 = { T with idt := S.idt, idtLimit := 4095 } := by
  have hidt : S.idt < 256 ^ 8 := Nat.lt_of_le_of_lt (Nat.le_add_right _ _)
    (Nat.lt_of_le_of_lt S.idt_low (by decide))
  have hptr : Holds (idtInstall S T mem).2 S.idtPointer
      (encodeLe 2 (idtBytes .long - 1) ++ encodeLe 8 S.idt) := holds_put _
  obtain ⟨hlimit, hbase⟩ := holds_append.mp hptr
  have hlimit' := (leAt_of_holds hlimit).trans (by decide : _ = 4095)
  have hbase' := (leAt_of_holds hbase).trans (Nat.mod_eq_of_lt hidt)
  exact Tables.ext rfl rfl hbase' hlimit' rfl rfl

/-- **The tables after `init_gdt` and `idt_install`.** -/
theorem install_eq (S : Symbols .long) (T : Tables) (mem : Bytes) : ∃ T' mem',
    installTables S T mem = .ok (T', mem') ∧ Installed .long S T' 0 mem' := by
  obtain ⟨mem₁, hgdt, hsegments, hrsp0⟩ := initGdt_eq (S := S) T mem
  let T₁ : Tables := { T with gdt := S.gdt, gdtLimit := 55, tss := S.tss, tssLimit := 103 }
  have hti := S.tss_apart.2
  have hgi := S.gdt_idt_apart
  obtain ⟨hgp, htp⟩ := S.idtPointer_apart
  simp only [Apart, gdtBytes, tssBytes, idtBytes, Mode.gateBytes, pointerBytes] at hti hgi hgp htp
  refine ⟨(idtInstall S T₁ mem₁).1, (idtInstall S T₁ mem₁).2, by rw [installTables, hgdt]; rfl, ?_⟩
  rw [idtInstall_tables]
  refine ⟨rfl, ⟨rfl, rfl⟩, ⟨rfl, rfl⟩, ?_, fun v => idtInstall_gates T₁ mem₁,
    ?_, by decide, fun h => by cases h⟩
  · have hother : ∀ a, S.gdt ≤ a → a < S.gdt + 56 → (idtInstall S T₁ mem₁).2 a = mem₁ a :=
      fun a ha hb => idtInstall_other (by omega) (by omega)
    have hkept := hsegments.congr fun a ha hb => hother a (Nat.le_of_add_right_le ha) hb
    exact ⟨hkept.limit, hkept.segments, hkept.system⟩
  · refine (leAt_congr fun a ha hb => idtInstall_other ?_ ?_).trans hrsp0
    · simp only [Mode.wordBytes] at hb
      omega
    · simp only [Mode.wordBytes] at hb
      omega

end ZeptoOS.X64
