import Mathlib.Tactic.IntervalCases
import ZeptoOS.Core.Tables

/-!
# I386 — Tables

`kernel/i386/gdt.c`, `gdt_flush.s`, `idt.c` and `kidt.s`: `init_gdt` and `idt_install`, as stores to
the memory and loads of the processor's registers.  A load that faults is an error.

`install_eq`: none of them faults, and they leave the tables that the kernel means.
-/

namespace ZeptoOS.I386
open Lib Lib.Protection ZeptoOS.Core

variable (S : Symbols .legacy)

/-- What `gdt_set_gate` assigns. -/
def gdtEntry (base limit : ℕ) (access granularity : BitVec 8) : GdtEntry where
  baseLow := .ofNat 16 (base &&& 0xFFFF)
  baseMiddle := .ofNat 8 (base >>> 16 &&& 0xFF)
  baseHigh := .ofNat 8 (base >>> 24 &&& 0xFF)
  limitLow := .ofNat 16 (limit &&& 0xFFFF)
  granularity := .ofNat 8 (limit >>> 16 &&& 0x0F) ||| (granularity &&& 0xF0)
  access

/-- `gdt_set_gate` -/
def gdtSetGate (mem : Bytes) (index base limit : ℕ) (access granularity : BitVec 8) : Bytes :=
  put mem (S.gdt + 8 * index) (gdtEntry base limit access granularity).bytes

/-- `write_tss` -/
def writeTss (mem : Bytes) (index ss0 esp0 : ℕ) : Bytes :=
  let base := S.tss
  let limit := tssBytes - 1
  let mem := gdtSetGate S mem index base limit 0x89 0x40
  let mem := put mem S.tss (List.replicate tssBytes 0)
  let mem := put mem (S.tss + 8) (encodeLe 4 ss0)
  let mem := put mem (S.tss + 4) (encodeLe 4 esp0)
  let mem := put mem (S.tss + 76) (encodeLe 4 0x08)
  let mem := put mem (S.tss + 80) (encodeLe 4 0x10)
  let mem := put mem (S.tss + 84) (encodeLe 4 0x10)
  let mem := put mem (S.tss + 72) (encodeLe 4 0x10)
  let mem := put mem (S.tss + 88) (encodeLe 4 0x10)
  let mem := put mem (S.tss + 92) (encodeLe 4 0x10)
  put mem (S.tss + 102) (encodeLe 2 tssBytes)

/-- `gdt_flush`: the data segment registers and `ss` get the kernel's data and the far jump its
code, which the processor marks as used. -/
def gdtFlush (T : Tables) (mem : Bytes) (pointer : ℕ) : Except ℕ (Tables × Bytes) := do
  let T := T.lgdt .legacy mem pointer
  let _ ← T.loadData mem 0 0x10
  let _ ← T.loadData mem 0 0x10
  let _ ← T.loadData mem 0 0x10
  let _ ← T.loadData mem 0 0x10
  let _ ← T.loadStack mem 0 0x10
  let _ ← T.target .legacy mem 0 0x08
  return (T, markAccessed (markAccessed mem (T.gdt + 0x10)) (T.gdt + 0x08))

/-- The stores of `init_gdt` before it calls `gdt_flush`. -/
def gdtStores (mem : Bytes) : Bytes :=
  let mem := put mem S.gdtPointer (encodeLe 2 (gdtBytes .legacy - 1) ++ encodeLe 4 S.gdt)
  let mem := gdtSetGate S mem 0 0 0 0 0
  let mem := gdtSetGate S mem 1 0 0xFFFFFFFF 0x9A 0xCF
  let mem := gdtSetGate S mem 2 0 0xFFFFFFFF 0x92 0xCF
  let mem := gdtSetGate S mem 3 0 0xFFFFFFFF 0xFA 0xCF
  let mem := gdtSetGate S mem 4 0 0xFFFFFFFF 0xF2 0xCF
  writeTss S mem 5 0x10 0

/-- `init_gdt`, with `tss_flush` at its end. -/
def initGdt (T : Tables) (mem : Bytes) : Except ℕ (Tables × Bytes) := do
  let (T, mem) ← gdtFlush T (gdtStores S mem) S.gdtPointer
  T.ltr .legacy mem 0x28

/-- `struct idt_entry` -/
structure IdtEntry where
  baseLow : BitVec 16
  sel : BitVec 16
  always0 : BitVec 8
  flags : BitVec 8
  baseHi : BitVec 16

/-- The entry in memory; the structure is packed. -/
def IdtEntry.bytes (e : IdtEntry) : List (BitVec 8) :=
  encodeLe 2 e.baseLow.toNat ++ encodeLe 2 e.sel.toNat ++ [e.always0, e.flags] ++
    encodeLe 2 e.baseHi.toNat

@[simp] theorem IdtEntry.length_bytes (e : IdtEntry) : e.bytes.length = 8 := by
  simp [bytes]

/-- What `idt_set_gate` assigns. -/
def idtEntry (base : ℕ) (sel : BitVec 16) (flags : BitVec 8) : IdtEntry where
  baseLow := .ofNat 16 (base &&& 0xFFFF)
  baseHi := .ofNat 16 (base >>> 16 &&& 0xFFFF)
  sel
  always0 := 0
  flags

/-- `idt_set_gate` -/
def idtSetGate (mem : Bytes) (num base : ℕ) (sel : BitVec 16) (flags : BitVec 8) : Bytes :=
  put mem (S.idt + 8 * num) (idtEntry base sel flags).bytes

/-- The loop of `idt_install`, over its first `i` turns. -/
def idtClear (mem : Bytes) : ℕ → Bytes
  | 0 => mem
  | i + 1 => idtSetGate S (idtClear mem i) i 0 0 0

/-- `idt_install` -/
def idtInstall (T : Tables) (mem : Bytes) : Tables × Bytes :=
  let mem := put mem S.idtPointer (encodeLe 2 (idtBytes .legacy - 1) ++ encodeLe 4 S.idt)
  let mem := idtClear S mem 256
  let mem := idtSetGate S mem 32 S.irq0Stub 0x08 0x8E
  let mem := idtSetGate S mem 33 S.irq1Stub 0x08 0x8E
  let mem := idtSetGate S mem 0x80 S.syscallStub 0x08 0xEE
  (T.lidt .legacy mem S.idtPointer, mem)

/-- What `kmain` does with the tables: `init_gdt` and then `idt_install`. -/
def installTables (T : Tables) (mem : Bytes) : Except ℕ (Tables × Bytes) := do
  let (T, mem) ← initGdt S T mem
  return idtInstall S T mem

/-! ### The GDT -/

variable {S}

/-- The array `gdt` after `init_gdt`. -/
def gdtEntries (S : Symbols .legacy) : ℕ → GdtEntry
  | 0 => gdtEntry 0 0 0 0
  | 1 => gdtEntry 0 0xFFFFFFFF 0x9A 0xCF
  | 2 => gdtEntry 0 0xFFFFFFFF 0x92 0xCF
  | 3 => gdtEntry 0 0xFFFFFFFF 0xFA 0xCF
  | 4 => gdtEntry 0 0xFFFFFFFF 0xF2 0xCF
  | _ => gdtEntry S.tss (tssBytes - 1) 0x89 0x40

theorem gdtStores_array (mem : Bytes) :
    HoldsArray (gdtStores S mem) S.gdt 8 6 fun i => (gdtEntries S i).bytes := by
  have hlen : ∀ i, (gdtEntries S i).bytes.length = 8 := fun i => GdtEntry.length_bytes _
  have hgt := S.tss_apart.1
  simp only [Apart, gdtBytes, tssBytes] at hgt
  let mem₀ := put mem S.gdtPointer (encodeLe 2 (gdtBytes .legacy - 1) ++ encodeLe 4 S.gdt)
  have hflat := ((holdsArray_slice mem₀ S.gdt 8 6).put (i := 0) (hlen 0)).put (i := 1) (hlen 1)
    |>.put (i := 2) (hlen 2) |>.put (i := 3) (hlen 3) |>.put (i := 4) (hlen 4)
    |>.put (i := 5) (hlen 5)
  have hoff : ∀ {m : Bytes} {f : ℕ → List (BitVec 8)} {n v : ℕ} (k : ℕ), k + n ≤ 104 →
      HoldsArray m S.gdt 8 6 f → HoldsArray (put m (S.tss + k) (encodeLe n v)) S.gdt 8 6 f :=
    fun k hk h => h.put_off _ _ (by simp; omega)
  have hzero := hflat.put_off S.tss (List.replicate tssBytes 0) (by simp [tssBytes]; omega)
  have hall : HoldsArray (gdtStores S mem) S.gdt 8 6 _ :=
    hoff 102 (by decide) (hoff 92 (by decide) (hoff 88 (by decide) (hoff 72 (by decide)
      (hoff 84 (by decide) (hoff 80 (by decide) (hoff 76 (by decide) (hoff 4 (by decide)
        (hoff 8 (by decide) hzero))))))))
  intro i hi
  obtain ⟨h, -⟩ := hall i hi
  refine ⟨?_, hlen i⟩
  interval_cases i <;> exact h

theorem gdtEntries_segment {i : ℕ} (h₁ : 1 ≤ i) (h₄ : i ≤ 4) :
    (gdtEntries S i).descriptor = segment .legacy i := by
  interval_cases i
  · exact (by decide : (gdtEntry 0 0xFFFFFFFF 0x9A 0xCF).descriptor = segment .legacy 1)
  · exact (by decide : (gdtEntry 0 0xFFFFFFFF 0x92 0xCF).descriptor = segment .legacy 2)
  · exact (by decide : (gdtEntry 0 0xFFFFFFFF 0xFA 0xCF).descriptor = segment .legacy 3)
  · exact (by decide : (gdtEntry 0 0xFFFFFFFF 0xF2 0xCF).descriptor = segment .legacy 4)

theorem gdtStores_segment (mem : Bytes) {i : ℕ} (h₁ : 1 ≤ i) (h₄ : i ≤ 4) :
    descriptorAt (gdtStores S mem) (S.gdt + 8 * i) = segment .legacy i := by
  rw [GdtEntry.descriptorAt_of_holds (gdtStores_array mem i (by omega)).1,
    gdtEntries_segment h₁ h₄]

theorem gdtStores_system (mem : Bytes) {i : ℕ} (h₅ : 5 ≤ i) (hi : 8 * i + 8 ≤ gdtBytes .legacy) :
    (descriptorAt (gdtStores S mem) (S.gdt + 8 * i)).kind < 16 := by
  have hlt : i < 6 := by
    simp only [gdtBytes] at hi
    omega
  rw [GdtEntry.descriptorAt_of_holds (gdtStores_array mem i hlt).1]
  interval_cases i
  rw [(GdtEntry.descriptor_tss (e := gdtEntries S 5) rfl rfl (.inr rfl)).2.1]
  decide

/-- `esp0` is zero, and `ss0` the kernel's data. -/
theorem gdtStores_stack (mem : Bytes) : leAt (gdtStores S mem) (S.tss + 4) 4 = 0 ∧
    leAt (gdtStores S mem) (S.tss + 8) 2 = 0x10 := by
  have hoff : ∀ {m : Bytes} {p n v k l : ℕ} {bs : List (BitVec 8)}, bs.length = l →
      k + l ≤ p ∨ p + n ≤ k → Holds m (S.tss + k) bs →
        Holds (put m (S.tss + p) (encodeLe n v)) (S.tss + k) bs := fun hl hk h =>
    h.put (by rw [hl, length_encodeLe]; omega)
  have hesp0 : Holds (gdtStores S mem) (S.tss + 4) (encodeLe 4 0) := by
    unfold gdtStores writeTss
    iterate 7 refine hoff (length_encodeLe 4 0) (by decide) ?_
    exact holds_put _
  have hss0 : Holds (gdtStores S mem) (S.tss + 8) (encodeLe 2 0x10) := by
    unfold gdtStores writeTss
    iterate 8 refine hoff (length_encodeLe 2 0x10) (by decide) ?_
    exact (holds_append.mp (show Holds _ _ (encodeLe 2 0x10 ++ encodeLe 2 0) from
      holds_put (encodeLe 4 0x10))).1
  exact ⟨leAt_of_holds hesp0, leAt_of_holds hss0⟩

theorem gdtStores_pointer (mem : Bytes) : leAt (gdtStores S mem) S.gdtPointer 2 = 47 ∧
    leAt (gdtStores S mem) (S.gdtPointer + 2) 4 = S.gdt := by
  have hgdt : S.gdt < 256 ^ 4 := Nat.lt_of_lt_of_le (Nat.lt_add_of_pos_right (by decide)) S.gdt_low
  have hgp := S.gdt_gdtPointer_apart
  have htp := S.tss_gdtPointer_apart
  simp only [Apart, gdtBytes, tssBytes, pointerBytes] at hgp htp
  have hptr : Holds (gdtStores S mem) S.gdtPointer
      (encodeLe 2 (gdtBytes .legacy - 1) ++ encodeLe 4 S.gdt) := by
    unfold gdtStores writeTss gdtSetGate
    iterate 16 refine Holds.put ?_ (by simp [tssBytes]; omega)
    exact holds_put _
  obtain ⟨hlimit, hbase⟩ := holds_append.mp hptr
  exact ⟨leAt_of_holds hlimit, (leAt_of_holds hbase).trans (Nat.mod_eq_of_lt hgdt)⟩

/-- The descriptor of the TSS. -/
theorem gdtStores_tss (mem : Bytes) :
    (descriptorAt (gdtStores S mem) (S.gdt + 40)).base = S.tss ∧
      (descriptorAt (gdtStores S mem) (S.gdt + 40)).limit = 103 ∧
      (descriptorAt (gdtStores S mem) (S.gdt + 40)).kind = 9 ∧
      (descriptorAt (gdtStores S mem) (S.gdt + 40)).present = true := by
  have hlt := S.tss_low
  rw [GdtEntry.descriptorAt_of_holds (gdtStores_array mem 5 (by decide)).1]
  refine ⟨?_, GdtEntry.descriptor_tss rfl rfl (.inr rfl)⟩
  simp only [gdtEntries, gdtEntry, GdtEntry.descriptor, toNat_mask16, toNat_mask8,
    Nat.shiftRight_eq_div_pow]
  simp only [tssBytes] at hlt
  omega

/-- `lgdt` finds the GDT. -/
theorem lgdt_eq (T : Tables) (mem : Bytes) : T.lgdt .legacy (gdtStores S mem) S.gdtPointer =
    { T with gdt := S.gdt, gdtLimit := 47 } := by
  obtain ⟨hlimit, hbase⟩ := gdtStores_pointer (S := S) mem
  rw [Tables.lgdt, hlimit]
  exact congrArg (fun b => { T with gdt := b, gdtLimit := 47 }) hbase

theorem hasSegments_stores (T : Tables) (mem : Bytes) :
    HasSegments .legacy { T with gdt := S.gdt, gdtLimit := 47 } (gdtStores S mem) :=
  ⟨rfl, fun _ => gdtStores_segment mem, fun _ => gdtStores_system mem⟩

/-- `init_gdt` does not fault. -/
theorem initGdt_eq (T : Tables) (mem : Bytes) : ∃ mem',
    initGdt S T mem = .ok ({ T with gdt := S.gdt, gdtLimit := 47, tss := S.tss, tssLimit := 103 },
      mem') ∧
    HasSegments .legacy { T with gdt := S.gdt, gdtLimit := 47 } mem' ∧
    leAt mem' (S.tss + 4) 4 = 0 ∧ leAt mem' (S.tss + 8) 2 = 0x10 := by
  obtain ⟨hbase, hlimit, hkind, hpresent⟩ := gdtStores_tss (S := S) mem
  have hsegments := hasSegments_stores (S := S) T mem
  obtain ⟨mem', hltr, hsegments', hother⟩ := hsegments.ltr hbase hlimit hkind hpresent
  refine ⟨mem', ?_, hsegments', ?_⟩
  · rw [initGdt, gdtFlush, lgdt_eq]
    simp only [bind, Except.bind, hsegments.loadData, hsegments.loadStack, hsegments.target]
    exact hltr
  · have hgt := S.tss_apart.1
    simp only [Apart, gdtBytes, tssBytes] at hgt
    rw [leAt_congr fun a h₁ h₂ => hother a (by dsimp only; omega),
      leAt_congr fun a h₁ h₂ => hother a (by dsimp only; omega)]
    exact gdtStores_stack mem

/-! ### The IDT -/

theorem IdtEntry.gateAt_of_holds {mem : Bytes} {a : ℕ} {e : IdtEntry} (h : Holds mem a e.bytes) :
    gateAt .legacy mem a = {
      offset := e.baseLow.toNat + 2 ^ 16 * e.baseHi.toNat
      selector := e.sel.toNat
      stack := 0
      kind := e.flags.toNat % 32
      dpl := e.flags.toNat / 32 % 4
      present := e.flags.toNat.testBit 7 } := by
  simp only [IdtEntry.bytes, holds_append, holds_cons, List.length_append, length_encodeLe,
    List.length_cons, List.length_nil, Nat.reduceAdd, Nat.add_assoc] at h
  obtain ⟨⟨⟨hlow, hsel⟩, -, hflags, -⟩, hhigh⟩ := h
  have hle : ∀ {x n v : ℕ}, Holds mem x (encodeLe n v) → v < 256 ^ n → leAt mem x n = v :=
    fun hx hv => (leAt_of_holds hx).trans (Nat.mod_eq_of_lt hv)
  have hone : ∀ x, leAt mem x 1 = (mem x).toNat := fun x => Nat.add_zero _
  simp only [gateAt, hone, hflags, hle hlow e.baseLow.isLt, hle hsel e.sel.isLt,
    hle hhigh e.baseHi.isLt]
  rfl

/-- The gate that `idt_set_gate` sets. -/
theorem gateAt_of_entry {mem : Bytes} {a base : ℕ} {sel : BitVec 16} {flags : BitVec 8}
    (hbase : base < 2 ^ 32) (h : Holds mem a (idtEntry base sel flags).bytes) :
    gateAt .legacy mem a = ⟨base, sel.toNat, 0, flags.toNat % 32, flags.toNat / 32 % 4,
      flags.toNat.testBit 7⟩ := by
  rw [IdtEntry.gateAt_of_holds h]
  have hoffset : base % 2 ^ 16 + 2 ^ 16 * (base / 2 ^ 16 % 2 ^ 16) = base := by
    omega
  simp only [idtEntry, toNat_mask16, Nat.shiftRight_eq_div_pow, hoffset]

theorem idtClear_array (mem : Bytes) :
    ∀ n, HoldsArray (idtClear S mem n) S.idt 8 n fun _ => (idtEntry 0 0 0).bytes
  | 0 => fun _ h => absurd h (Nat.not_lt_zero _)
  | n + 1 => (idtClear_array mem n).snoc (IdtEntry.length_bytes _)

theorem idtClear_other {mem : Bytes} {a : ℕ} :
    ∀ {n}, a < S.idt ∨ S.idt + 8 * n ≤ a → idtClear S mem n a = mem a
  | 0, _ => rfl
  | n + 1, h => by
      rw [idtClear, idtSetGate, put_outside (by rw [IdtEntry.length_bytes]; omega)]
      exact idtClear_other (by omega)

/-- Off the IDT and its pointer, `idt_install` changes nothing. -/
theorem idtInstall_other {T : Tables} {mem : Bytes} {a : ℕ} (hi : a < S.idt ∨ S.idt + 2048 ≤ a)
    (hp : a < S.idtPointer ∨ S.idtPointer + 6 ≤ a) : (idtInstall S T mem).2 a = mem a := by
  have hset : ∀ (m : Bytes) (i base : ℕ) (sel : BitVec 16) (flags : BitVec 8), i < 256 →
      idtSetGate S m i base sel flags a = m a := fun m i base sel flags hlt => by
    rw [idtSetGate, put_outside (by rw [IdtEntry.length_bytes]; omega)]
  unfold idtInstall
  dsimp only
  rw [hset _ _ _ _ _ (by decide), hset _ _ _ _ _ (by decide), hset _ _ _ _ _ (by decide),
    idtClear_other (by omega), put_outside (by simp; omega)]

/-- `idt_install` sets the gates. -/
theorem idtInstall_gates (T : Tables) (mem : Bytes) {v : ℕ} (hv : v < 256) :
    gateAt .legacy (idtInstall S T mem).2 (S.idt + 8 * v) = S.gate v := by
  obtain ⟨h₀, h₁, h₂⟩ := S.stubs_low
  have hlen : ∀ base sel flags, (idtEntry base sel flags).bytes.length = 8 :=
    fun _ _ _ => IdtEntry.length_bytes _
  let mem₀ := put mem S.idtPointer (encodeLe 2 (idtBytes .legacy - 1) ++ encodeLe 4 S.idt)
  have hall := (((idtClear_array (S := S) mem₀ 256).put (i := 32)
    (hlen S.irq0Stub 0x08 0x8E)).put (i := 33) (hlen S.irq1Stub 0x08 0x8E)).put (i := 0x80)
    (hlen S.syscallStub 0x08 0xEE)
  obtain ⟨h, -⟩ := hall v hv
  simp only [Function.update_apply] at h
  rw [Symbols.gate, Symbols.stub]
  by_cases e₂ : v = 0x80
  · subst e₂
    exact gateAt_of_entry h₂ h
  by_cases e₁ : v = 33
  · subst e₁
    exact gateAt_of_entry h₁ h
  by_cases e₀ : v = 32
  · subst e₀
    exact gateAt_of_entry h₀ h
  · rw [if_neg e₂, if_neg e₁, if_neg e₀] at h
    rw [if_neg e₀, if_neg e₁, if_neg e₂]
    exact gateAt_of_entry (by decide) h

/-- `lidt` finds the IDT. -/
theorem idtInstall_tables (T : Tables) (mem : Bytes) :
    (idtInstall S T mem).1 = { T with idt := S.idt, idtLimit := 2047 } := by
  have hidt : S.idt < 256 ^ 4 := Nat.lt_of_lt_of_le (Nat.lt_add_of_pos_right (by decide)) S.idt_low
  have hip := S.idt_idtPointer_apart
  simp only [Apart, idtBytes, Mode.gateBytes, pointerBytes] at hip
  have hptr : Holds (idtInstall S T mem).2 S.idtPointer
      (encodeLe 2 (idtBytes .legacy - 1) ++ encodeLe 4 S.idt) := by
    unfold idtInstall idtSetGate
    iterate 3 refine Holds.put ?_ (by simp; omega)
    refine (holds_put _).of_agree fun a h₁ h₂ => idtClear_other ?_
    simp at h₂
    omega
  obtain ⟨hlimit, hbase⟩ := holds_append.mp hptr
  have hlimit' := (leAt_of_holds hlimit).trans (by decide : _ = 2047)
  have hbase' := (leAt_of_holds hbase).trans (Nat.mod_eq_of_lt hidt)
  exact Tables.ext rfl rfl hbase' hlimit' rfl rfl

/-- **The tables after `init_gdt` and `idt_install`.** -/
theorem install_eq (S : Symbols .legacy) (T : Tables) (mem : Bytes) : ∃ T' mem',
    installTables S T mem = .ok (T', mem') ∧ Installed .legacy S T' 0 mem' := by
  obtain ⟨mem₁, hgdt, hsegments, hesp0, hss0⟩ := initGdt_eq (S := S) T mem
  let T₁ : Tables := { T with gdt := S.gdt, gdtLimit := 47, tss := S.tss, tssLimit := 103 }
  have hti := S.tss_apart.2
  have hgi := S.gdt_idt_apart
  obtain ⟨hgp, htp⟩ := S.idtPointer_apart
  simp only [Apart, gdtBytes, tssBytes, idtBytes, Mode.gateBytes, pointerBytes] at hti hgi hgp htp
  refine ⟨(idtInstall S T₁ mem₁).1, (idtInstall S T₁ mem₁).2, by rw [installTables, hgdt]; rfl, ?_⟩
  rw [idtInstall_tables]
  refine ⟨rfl, ⟨rfl, rfl⟩, ⟨rfl, rfl⟩, ?_, fun v => idtInstall_gates T₁ mem₁,
    ?_, by decide, fun _ => ?_⟩
  · have hother : ∀ a, S.gdt ≤ a → a < S.gdt + 48 → (idtInstall S T₁ mem₁).2 a = mem₁ a :=
      fun a ha hb => idtInstall_other (by omega) (by omega)
    have hkept := hsegments.congr fun a ha hb => hother a (Nat.le_of_add_right_le ha) hb
    exact ⟨hkept.limit, hkept.segments, hkept.system⟩
  · refine (leAt_congr fun a ha hb => idtInstall_other ?_ ?_).trans hesp0
    · simp only [Mode.wordBytes] at hb
      omega
    · simp only [Mode.wordBytes] at hb
      omega
  · exact (leAt_congr fun a ha hb => idtInstall_other (by omega) (by omega)).trans hss0

end ZeptoOS.I386
