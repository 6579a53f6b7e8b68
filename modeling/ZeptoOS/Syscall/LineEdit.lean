import ZeptoOS.Syscall.Echo

/-!
# Syscall — LineEdit

`sys_read` on the keyboard as an editor of lines.  What it leaves in the buffer is what it consumed,
with each backspace cancelling a character before it (`lineText`); it consumes the shortest piece of
the stream that ends a line or fills the buffer (`Ends`), so calls in a row cut the stream into such
pieces (`reads_split_stream`).

The count is an unsigned word that is returned as a signed one.
-/

namespace ZeptoOS.Syscall
open Lib Fs

/-! ### Cancellation -/

/-- `'\n'` or `'\r'` -/
def IsEnd (c : BitVec 8) : Prop := c = 0x0A ∨ c = 0x0D

instance (c : BitVec 8) : Decidable (IsEnd c) := inferInstanceAs (Decidable (_ ∨ _))

/-- A line without its last character that is not a newline. -/
def eraseLast (line : List (BitVec 8)) : List (BitVec 8) :=
  (line.reverse.eraseP (· ≠ 0x0A)).reverse

/-- The characters that survive: a backspace cancels the last one before it. -/
def cancel (cs : List (BitVec 8)) : List (BitVec 8) :=
  cs.foldl (fun line c => if c = 0x08 then eraseLast line else line ++ [c]) []

/-- A carriage return at the end is a newline. -/
def endLine (line : List (BitVec 8)) : List (BitVec 8) :=
  if line.getLast? = some 0x0D then line.dropLast ++ [0x0A] else line

/-- The line that is typed by `cs`. -/
def lineText (cs : List (BitVec 8)) : List (BitVec 8) := endLine (cancel cs)

/-- A call for `len` characters has enough: the line ends, or `len` characters survive. -/
def Ends (len : ℕ) (cs : List (BitVec 8)) : Prop :=
  (∃ c, cs.getLast? = some c ∧ IsEnd c) ∨ (cancel cs).length = len

theorem cancel_snoc (cs : List (BitVec 8)) (c : BitVec 8) :
    cancel (cs ++ [c]) = if c = 0x08 then eraseLast (cancel cs) else cancel cs ++ [c] := by
  rw [cancel, List.foldl_append]
  rfl

theorem mem_of_mem_cancel {cs : List (BitVec 8)} {x : BitVec 8} (h : x ∈ cancel cs) : x ∈ cs := by
  induction cs using List.reverseRecOn with
  | nil => cases h
  | append_singleton cs c ih =>
      rw [cancel_snoc] at h
      split at h
      · have hmem : x ∈ (cancel cs).reverse := List.mem_of_mem_eraseP (List.mem_reverse.mp h)
        exact List.mem_append_left _ (ih (List.mem_reverse.mp hmem))
      · rcases List.mem_append.mp h with h | h
        · exact List.mem_append_left _ (ih h)
        · exact List.mem_append_right _ h

/-- In a line without a newline the last character goes. -/
theorem eraseLast_eq {line : List (BitVec 8)} (h : ∀ c ∈ line, ¬ IsEnd c) :
    eraseLast line = line.dropLast := by
  induction line using List.reverseRecOn with
  | nil => rfl
  | append_singleton line c _ =>
      have hc : c ≠ 0x0A := fun e => h c (by simp) (.inl e)
      rw [eraseLast, List.reverse_append, List.reverse_singleton, List.singleton_append,
        List.eraseP_cons_of_pos (by simpa using hc), List.reverse_reverse, List.dropLast_concat]

theorem endLine_eq {line : List (BitVec 8)} (h : ∀ c ∈ line, ¬ IsEnd c) : endLine line = line := by
  refine if_neg fun hlast => ?_
  exact h 0x0D (List.mem_of_getLast? hlast) (.inr rfl)

theorem endLine_snoc {line : List (BitVec 8)} {c : BitVec 8} (hc : IsEnd c) :
    endLine (line ++ [c]) = line ++ [0x0A] := by
  rw [endLine, List.getLast?_concat, List.dropLast_concat]
  rcases hc with rfl | rfl
  · rfl
  · rfl

/-! ### The loop -/

/-- The loop of `sys_read` after `cs`: what survives is in the buffer. -/
structure Editing (buf len : ℕ) (cs : List (BitVec 8)) (written : ℕ) (mem : Bytes) : Prop where
  noEnd : ∀ c ∈ cs, ¬ IsEnd c
  written_eq : (cancel cs).length = written
  written_le : written ≤ len
  holds : Holds mem buf (cancel cs)

/-- The stream behind `cs` up to where the call returns. -/
structure Consumes (buf len : ℕ) (cs : List (BitVec 8)) (t : Terminal) (n : ℕ)
    (r : ℕ × Bytes × Terminal) : Prop where
  keys : r.2.2.keys = t.keys
  next : r.2.2.next = t.next + n
  ends : Ends len (cs ++ slice t.keys t.next n)
  shortest : ∀ m < n, ¬ Ends len (cs ++ slice t.keys t.next m)
  ret : r.1 = (lineText (cs ++ slice t.keys t.next n)).length
  ret_le : r.1 ≤ len
  holds : Holds r.2.1 buf (lineText (cs ++ slice t.keys t.next n))

section Loop

variable {N : Type*} {K : Kernel N Terminal} {buf len written n : ℕ} {cs : List (BitVec 8)}
  {mem : Bytes} {t : Terminal} {c : BitVec 8} {r : ℕ × Bytes × Terminal}

theorem Editing.surviving (h : Editing buf len cs written mem) : ∀ c ∈ cancel cs, ¬ IsEnd c :=
  fun c hc => h.noEnd c (mem_of_mem_cancel hc)

theorem Editing.not_ends (h : Editing buf len cs written mem) (hlt : written < len) :
    ¬ Ends len cs := by
  rintro (⟨c, hlast, hc⟩ | hlen)
  · exact h.noEnd c (List.mem_of_getLast? hlast) hc
  · have hwritten := h.written_eq
    omega

/-- **A backspace** takes the last character away. -/
theorem Editing.backspace (h : Editing buf len cs written mem) :
    Editing buf len (cs ++ [0x08]) (written - 1) mem := by
  have hcancel : cancel (cs ++ [0x08]) = (cancel cs).dropLast := by
    rw [cancel_snoc, if_pos rfl, eraseLast_eq h.surviving]
  constructor
  · intro c hc
    rcases List.mem_append.mp hc with hc | hc
    · exact h.noEnd c hc
    · obtain rfl := List.mem_singleton.mp hc
      decide
  · rw [hcancel, List.length_dropLast, h.written_eq]
  · exact (Nat.sub_le _ _).trans h.written_le
  · rw [hcancel]
    intro k b hb
    rw [List.getElem?_dropLast] at hb
    split at hb
    · exact h.holds k b hb
    · cases hb

/-- **A character** goes to the end. -/
theorem Editing.put (h : Editing buf len cs written mem) (hlt : written < len) (hb : c ≠ 0x08)
    (hc : ¬ IsEnd c) :
    Editing buf len (cs ++ [c]) (written + 1) (Function.update mem (buf + written) c) := by
  have hcancel : cancel (cs ++ [c]) = cancel cs ++ [c] := by rw [cancel_snoc, if_neg hb]
  constructor
  · intro d hd
    rcases List.mem_append.mp hd with hd | hd
    · exact h.noEnd d hd
    · obtain rfl := List.mem_singleton.mp hd
      exact hc
  · rw [hcancel, List.length_append, h.written_eq, List.length_singleton]
  · exact hlt
  · rw [hcancel]
    exact h.holds.snoc h.written_eq c

/-- One more character in front of what is consumed. -/
theorem Consumes.cons {t' : Terminal} (h : Consumes buf len (cs ++ [t.keys t.next]) t' n r)
    (hnot : ¬ Ends len cs) (hkeys : t'.keys = t.keys) (hnext : t'.next = t.next + 1) :
    Consumes buf len cs t (n + 1) r := by
  have hsplit : ∀ m, cs ++ slice t.keys t.next (m + 1) =
      cs ++ [t.keys t.next] ++ slice t'.keys t'.next m := by
    intro m
    rw [slice_succ, hkeys, hnext, List.append_assoc]
    rfl
  constructor
  · rw [h.keys, hkeys]
  · rw [h.next, hnext, Nat.add_assoc, Nat.add_comm 1]
  · rw [hsplit]
    exact h.ends
  · intro m hm
    cases m with
    | zero =>
        rw [slice, List.range_zero, List.map_nil, List.append_nil]
        exact hnot
    | succ m =>
        rw [hsplit]
        exact h.shortest m (Nat.lt_of_succ_lt_succ hm)
  · rw [hsplit]
    exact h.ret
  · exact h.ret_le
  · rw [hsplit]
    exact h.holds

/-- The line ends with the next character. -/
theorem Consumes.end (h : Editing buf len cs written mem) (hlt : written < len)
    (hc : IsEnd (t.keys t.next)) {t' : Terminal} (hkeys : t'.keys = t.keys)
    (hnext : t'.next = t.next + 1) :
    Consumes buf len cs t 1 (written + 1, Function.update mem (buf + written) 0x0A, t') := by
  have hb : t.keys t.next ≠ 0x08 := by
    intro e
    rw [e] at hc
    exact absurd hc (by decide)
  have hslice : slice t.keys t.next 1 = [t.keys t.next] := rfl
  have htext : lineText (cs ++ [t.keys t.next]) = cancel cs ++ [0x0A] := by
    rw [lineText, cancel_snoc, if_neg hb, endLine_snoc hc]
  constructor
  · exact hkeys
  · exact hnext
  · exact .inl ⟨_, by rw [hslice, List.getLast?_concat], hc⟩
  · intro m hm
    obtain rfl : m = 0 := Nat.lt_one_iff.mp hm
    rw [slice, List.range_zero, List.map_nil, List.append_nil]
    exact h.not_ends hlt
  · rw [hslice, htext, List.length_append, h.written_eq, List.length_singleton]
  · exact hlt
  · rw [hslice, htext]
    exact h.holds.snoc h.written_eq 0x0A

/-- The buffer is full. -/
theorem Consumes.full (h : Editing buf len cs written mem) (hfull : ¬ written < len) :
    Consumes buf len cs t 0 (written, mem, t) := by
  have hwritten : (cancel cs).length = written := h.written_eq
  have hle := h.written_le
  have htext : lineText cs = cancel cs := endLine_eq h.surviving
  have hslice : cs ++ slice t.keys t.next 0 = cs := List.append_nil cs
  constructor
  · rfl
  · rfl
  · rw [hslice]
    exact .inr (by omega)
  · intro m hm
    cases hm
  · rw [hslice, htext, hwritten]
  · exact hle
  · rw [hslice, htext]
    exact h.holds

/-- **What the loop consumes.** -/
theorem readLoop_consumes {fuel : ℕ} (h : Editing buf len cs written mem)
    (hret : readLoop K.onTerminal buf len fuel written mem t = some r) :
    ∃ n, Consumes buf len cs t n r := by
  induction fuel generalizing cs written mem t with
  | zero => cases hret
  | succ fuel ih =>
      rw [readLoop] at hret
      split at hret
      · rename_i hlt
        rw [K.onTerminal_key] at hret
        dsimp only [Kernel.onTerminal_kprintf] at hret
        have hnot := h.not_ends hlt
        split at hret
        · rename_i hb
          split at hret
          · obtain ⟨n, hn⟩ := ih (hb ▸ h.backspace) hret
            exact ⟨n + 1, hn.cons hnot rfl rfl⟩
          · rename_i hzero
            obtain rfl := Nat.eq_zero_of_not_pos hzero
            obtain ⟨n, hn⟩ := ih (hb ▸ h.backspace) hret
            exact ⟨n + 1, hn.cons hnot rfl rfl⟩
        · rename_i hb
          split at hret
          · rename_i hc
            cases hret
            exact ⟨1, .end h hlt hc rfl rfl⟩
          · rename_i hc
            obtain ⟨n, hn⟩ := ih (h.put hlt hb hc) hret
            exact ⟨n + 1, hn.cons hnot rfl rfl⟩
      · rename_i hfull
        cases hret
        exact ⟨0, .full h hfull⟩

/-- The loop returns, where the stream has enough for it. -/
theorem readLoop_returns (h : Editing buf len cs written mem)
    (hends : Ends len (cs ++ slice t.keys t.next n)) :
    (readLoop K.onTerminal buf len (n + 1) written mem t).isSome := by
  induction n generalizing cs written mem t with
  | zero =>
      have hslice : cs ++ slice t.keys t.next 0 = cs := List.append_nil cs
      rw [hslice] at hends
      rw [readLoop, if_neg fun hlt => h.not_ends hlt hends]
      rfl
  | succ n ih =>
      rw [slice_succ, ← List.singleton_append, ← List.append_assoc] at hends
      rw [readLoop]
      split
      · rename_i hlt
        rw [K.onTerminal_key]
        dsimp only [Kernel.onTerminal_kprintf]
        split
        · rename_i hb
          split
          · exact ih (hb ▸ h.backspace) hends
          · rename_i hzero
            obtain rfl := Nat.eq_zero_of_not_pos hzero
            exact ih (hb ▸ h.backspace) hends
        · rename_i hb
          split
          · rfl
          · rename_i hc
            exact ih (h.put hlt hb hc) hends
      · rfl

end Loop

/-! ### Calls in a row -/

section Calls

variable {N σ : Type*}

/-- `sys_read` with the cast of what it returns, to `int` or `int64_t`. -/
def sysReadWord (K : Kernel N σ) (tgt : Target) (fuel : ℕ) (fd : BitVec 32) (buf : ℕ)
    (len : BitVec tgt.ptrBits) (mem : Bytes) (s : σ) : Option (BitVec tgt.ptrBits × Bytes × σ) :=
  (sysRead K fuel fd buf len.toNat mem s).map fun (ret, mem, s) =>
    (BitVec.ofInt tgt.ptrBits ret, mem, s)

/-- A call of `sys_read` on the keyboard: its arguments, memory before and after, and what it
returned. -/
structure ReadCall (tgt : Target) where
  buf : ℕ
  len : BitVec tgt.ptrBits
  mem : Bytes
  ret : BitVec tgt.ptrBits
  after : Bytes

def ReadStep (K : Kernel N Terminal) (tgt : Target) (t : Terminal) (call : ReadCall tgt)
    (t' : Terminal) : Prop :=
  ∃ fuel, sysReadWord K.onTerminal tgt fuel 0 call.buf call.len call.mem t =
    some (call.ret, call.after, t')

/-- A call that consumed `cs`: the shortest piece that is enough for it, of which it leaves the
line in its buffer and returns the length. -/
structure ReadsLine {tgt : Target} (call : ReadCall tgt) (cs : List (BitVec 8)) : Prop where
  ends : Ends call.len.toNat cs
  shortest : ∀ m < cs.length, ¬ Ends call.len.toNat (cs.take m)
  ret : call.ret.toNat = (lineText cs).length
  ret_le : call.ret.toNat ≤ call.len.toNat
  ret_int : call.ret.toNat < 2 ^ (tgt.ptrBits - 1) → call.ret.toInt = (lineText cs).length
  holds : Holds call.after call.buf (lineText cs)
  outside : ∀ a, ¬ (call.buf ≤ a ∧ a < call.buf + call.len.toNat) → call.after a = call.mem a

variable {K : Kernel N Terminal} {tgt : Target} {t t' : Terminal} {call : ReadCall tgt}

theorem editing_init (buf len : ℕ) (mem : Bytes) : Editing buf len [] 0 mem where
  noEnd c hc := by cases hc
  written_eq := rfl
  written_le := Nat.zero_le len
  holds := holds_nil

/-- **One call.** -/
theorem ReadStep.readsLine (h : ReadStep K tgt t call t') :
    ∃ n, t'.keys = t.keys ∧ t'.next = t.next + n ∧ ReadsLine call (slice t.keys t.next n) := by
  obtain ⟨fuel, hret⟩ := h
  obtain ⟨⟨ret, after, t₁⟩, hread, hword⟩ := Option.map_eq_some_iff.mp hret
  obtain ⟨hr, rfl, rfl⟩ : BitVec.ofInt tgt.ptrBits ret = call.ret ∧ call.after = after ∧
      t' = t₁ := by
    simpa [eq_comm] using hword
  have houtside : ∀ a, ¬ (call.buf ≤ a ∧ a < call.buf + call.len.toNat) →
      call.after a = call.mem a := fun a ha => sysRead_outside (fun hin => ha hin.2) hread
  rw [sysRead, if_neg (not_not_intro rfl)] at hread
  obtain ⟨⟨written, after, t₁⟩, hloop, hr'⟩ := Option.map_eq_some_iff.mp hread
  obtain ⟨rfl, rfl, rfl⟩ : ret = (written : ℤ) ∧ call.after = after ∧ t' = t₁ := by
    simpa [eq_comm] using hr'
  obtain ⟨n, hn⟩ := readLoop_consumes (editing_init call.buf call.len.toNat call.mem) hloop
  have hlen : written = (lineText (slice t.keys t.next n)).length := hn.ret
  have hword : call.ret.toNat = written := by
    rw [← hr, BitVec.ofInt_natCast, BitVec.toNat_ofNat]
    exact Nat.mod_eq_of_lt (Nat.lt_of_le_of_lt hn.ret_le call.len.isLt)
  refine ⟨n, hn.keys, hn.next, hn.ends, ?_, hword.trans hlen, ?_, ?_, hn.holds, houtside⟩
  · intro m hm
    rw [length_slice] at hm
    rw [take_slice _ _ (Nat.le_of_lt hm)]
    exact hn.shortest m hm
  · rw [hword]
    exact hn.ret_le
  · intro hsmall
    have hbits : 0 < tgt.ptrBits := by cases tgt <;> decide
    have hhalf := Nat.two_pow_pred_mul_two hbits
    rw [BitVec.toInt_eq_toNat_of_lt (by omega), hword, hlen]

/-- A call returns exactly if the stream has enough for it. -/
theorem read_returns_iff (K : Kernel N Terminal) (tgt : Target) (t : Terminal) (buf : ℕ)
    (len : BitVec tgt.ptrBits) (mem : Bytes) :
    (∃ ret after t', ReadStep K tgt t ⟨buf, len, mem, ret, after⟩ t') ↔
      ∃ n, Ends len.toNat (slice t.keys t.next n) := by
  constructor
  · rintro ⟨ret, after, t', h⟩
    obtain ⟨n, -, -, hline⟩ := h.readsLine
    exact ⟨n, hline.ends⟩
  · rintro ⟨n, hn⟩
    obtain ⟨⟨written, after, t'⟩, hloop⟩ := Option.isSome_iff_exists.mp
      (readLoop_returns (K := K) (t := t) (editing_init buf len.toNat mem) hn)
    refine ⟨BitVec.ofInt tgt.ptrBits written, after, t', n + 1, ?_⟩
    rw [sysReadWord, sysRead, if_neg (not_not_intro rfl), hloop]
    rfl

/-- **Calls in a row cut the stream.**  Each consumes the shortest piece that is enough for it, in
order and with nothing between. -/
theorem reads_split_stream (K : Kernel N Terminal) (tgt : Target) {t t' : Terminal}
    {calls : List (ReadCall tgt)} (hrun : Run (ReadStep K tgt) t calls t') :
    ∃ pieces, List.Forall₂ ReadsLine calls pieces ∧ t'.keys = t.keys ∧
      t'.next = t.next + pieces.flatten.length ∧
      slice t.keys t.next pieces.flatten.length = pieces.flatten := by
  induction hrun with
  | refl t => exact ⟨[], .nil, rfl, rfl, rfl⟩
  | more h _ ih =>
      obtain ⟨n, hkeys, hnext, hline⟩ := h.readsLine
      obtain ⟨pieces, hlines, hkeys', hnext', hslice⟩ := ih
      refine ⟨_ :: pieces, .cons hline hlines, hkeys'.trans hkeys, ?_, ?_⟩
      · rw [hnext', hnext, List.flatten_cons, List.length_append, length_slice, Nat.add_assoc]
      · rw [List.flatten_cons, List.length_append, length_slice, slice_append, ← hnext, ← hkeys,
          hslice]

/-- `a` and a newline. -/
theorem reads_split_stream_one_line :
    ∃ (t t' : Terminal) (call : ReadCall .x86_64), ReadStep bareKernel .x86_64 t call t' ∧
      ∃ cs, ReadsLine call cs ∧ t'.next = cs.length := by
  let t : Terminal := ⟨fun i => if i = 0 then 0x61 else 0x0A, 0, blankVga⟩
  have hends : Ends (10 : BitVec 64).toNat (slice t.keys t.next 2) := .inl ⟨0x0A, rfl, .inl rfl⟩
  obtain ⟨ret, after, t', hstep⟩ :=
    (read_returns_iff bareKernel .x86_64 t 0x800000 10 fun _ => 0).mpr ⟨2, hends⟩
  obtain ⟨pieces, hlines, -, hnext, -⟩ := reads_split_stream bareKernel .x86_64 (.one hstep)
  cases hlines with
  | cons hline hrest =>
      cases hrest
      refine ⟨t, t', _, hstep, _, hline, ?_⟩
      rw [hnext, List.flatten_singleton]
      exact Nat.zero_add _

theorem cancel_replicate {c : BitVec 8} (hb : c ≠ 0x08) (n : ℕ) :
    cancel (List.replicate n c) = List.replicate n c := by
  induction n with
  | zero => rfl
  | succ n ih => rw [List.replicate_succ', cancel_snoc, if_neg hb, ih]

/-- Of a character without end, as many are enough as were asked for. -/
theorem ends_replicate {c : BitVec 8} (hb : c ≠ 0x08) (hc : ¬ IsEnd c) {len n : ℕ} :
    Ends len (List.replicate n c) ↔ n = len := by
  rw [Ends, cancel_replicate hb, List.length_replicate]
  refine or_iff_right ?_
  rintro ⟨d, hd, hend⟩
  obtain rfl := List.eq_of_mem_replicate (List.mem_of_getLast? hd)
  exact hc hend

/-- A call in a stream of `a` returns what it was asked for. -/
theorem read_constant (K : Kernel N Terminal) (tgt : Target) (buf : ℕ) (len : BitVec tgt.ptrBits)
    (mem : Bytes) :
    ∃ after t', ReadStep K tgt ⟨fun _ => 0x61, 0, blankVga⟩ ⟨buf, len, mem, len, after⟩ t' := by
  have hslice : ∀ n, slice (fun _ : ℕ => (0x61 : BitVec 8)) 0 n = List.replicate n 0x61 := by
    intro n
    rw [slice, List.map_const', List.length_range]
  have hends : ∀ n, Ends len.toNat (slice (fun _ => (0x61 : BitVec 8)) 0 n) ↔ n = len.toNat := by
    intro n
    rw [hslice, ends_replicate (by decide) (by decide)]
  obtain ⟨ret, after, t', hstep⟩ := (read_returns_iff K tgt ⟨fun _ => 0x61, 0, blankVga⟩ buf len
    mem).mpr ⟨len.toNat, (hends _).mpr rfl⟩
  obtain ⟨n, -, -, hline⟩ := hstep.readsLine
  have hret : ret.toNat = (lineText (slice (fun _ => (0x61 : BitVec 8)) 0 n)).length := hline.ret
  obtain rfl := (hends n).mp hline.ends
  have htext : endLine (List.replicate len.toNat 0x61) = List.replicate len.toNat 0x61 := by
    refine endLine_eq fun c hc => ?_
    obtain rfl := List.eq_of_mem_replicate hc
    decide
  rw [hslice, lineText, cancel_replicate (by decide), htext, List.length_replicate] at hret
  obtain rfl : ret = len := BitVec.eq_of_toNat_eq hret
  exact ⟨after, t', hstep⟩

/-- 2^31 characters without a newline are more than an `int` can say. -/
theorem long_line_negative :
    ¬ ∀ (tgt : Target) (K : Kernel Unit Terminal) (t t' : Terminal) (call : ReadCall tgt),
      ReadStep K tgt t call t' → 0 ≤ call.ret.toInt ∧ call.ret.toInt ≤ call.len.toNat := by
  intro hall
  obtain ⟨after, t', hstep⟩ := read_constant bareKernel .i386 0x800000 0x80000000#32 fun _ => 0
  have hsign := (hall .i386 bareKernel _ t' _ hstep).1
  have hint : (0x80000000#32).toInt = -2147483648 := by decide
  exact absurd (hint ▸ hsign : (0 : ℤ) ≤ -2147483648) (by decide)

end Calls

end ZeptoOS.Syscall
