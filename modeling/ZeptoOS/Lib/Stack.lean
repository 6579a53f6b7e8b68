import Mathlib.Data.List.Basic
import Mathlib.Logic.Function.Basic

/-!
# Lib — Stack

A descending stack of words of `n` bytes in a word memory.  `pushAll` is a sequence of pushes and
`words` what the same number of pops would read: `words_pushAll` says that the pops read the
pushed words back in reverse, and `pushAll_other` that pushing touches nothing else.
-/

namespace ZeptoOS.Lib

/-- A memory and a stack pointer. -/
structure Stack (W : Type*) where
  mem : ℕ → W
  sp : ℕ

namespace Stack

variable {W : Type*}

/-- `*--sp = w`, for words of `n` bytes. -/
def push (n : ℕ) (s : Stack W) (w : W) : Stack W :=
  ⟨Function.update s.mem (s.sp - n) w, s.sp - n⟩

/-- Pushes, the first of `ws` first. -/
def pushAll (n : ℕ) (s : Stack W) (ws : List W) : Stack W := ws.foldl (push n) s

/-- The `k` words from `sp` upwards, as pops read them. -/
def words (n : ℕ) (mem : ℕ → W) (sp : ℕ) : ℕ → List W
  | 0 => []
  | k + 1 => words n mem sp k ++ [mem (sp + n * k)]

variable {n : ℕ}

@[simp] theorem length_words (mem : ℕ → W) (sp : ℕ) : ∀ k, (words n mem sp k).length = k
  | 0 => rfl
  | k + 1 => by rw [words, List.length_append, length_words mem sp k]; rfl

theorem getElem?_words (mem : ℕ → W) (sp : ℕ) :
    ∀ {k j : ℕ}, j < k → (words n mem sp k)[j]? = some (mem (sp + n * j))
  | k + 1, j, h => by
      rw [words]
      rcases Nat.lt_succ_iff_lt_or_eq.mp h with hlt | rfl
      · rw [List.getElem?_append_left (by rwa [length_words]), getElem?_words mem sp hlt]
      · rw [List.getElem?_append_right (by simp), length_words, Nat.sub_self]
        rfl

/-- Pops read only the words they pop. -/
theorem words_congr (hn : 0 < n) {mem mem' : ℕ → W} {sp : ℕ} :
    ∀ {k : ℕ}, (∀ a, sp ≤ a → a < sp + n * k → mem' a = mem a) →
      words n mem' sp k = words n mem sp k
  | 0, _ => rfl
  | k + 1, h => by
      have hk : n * (k + 1) = n * k + n := Nat.mul_succ n k
      rw [words, words, words_congr hn fun a h₁ h₂ => h a h₁ (by omega),
        h _ (Nat.le_add_right _ _) (by omega)]

theorem words_add (mem : ℕ → W) (sp k : ℕ) :
    ∀ l, words n mem sp (k + l) = words n mem sp k ++ words n mem (sp + n * k) l
  | 0 => by rw [words, List.append_nil, Nat.add_zero]
  | l + 1 => by
      rw [← Nat.add_assoc, words, words_add mem sp k l, words, List.append_assoc, Nat.mul_add,
        Nat.add_assoc]

theorem pushAll_append (s : Stack W) (ws vs : List W) :
    pushAll n s (ws ++ vs) = pushAll n (pushAll n s ws) vs :=
  List.foldl_append

theorem pushAll_sp (s : Stack W) (ws : List W) :
    (pushAll n s ws).sp = s.sp - n * ws.length := by
  induction ws generalizing s with
  | nil => rfl
  | cons w ws ih =>
      rw [pushAll, List.foldl_cons, ← pushAll, ih, List.length_cons, Nat.mul_succ, push]
      dsimp only
      omega

/-- Pushing changes only the words it pushes. -/
theorem pushAll_other {s : Stack W} {ws : List W} {a : ℕ}
    (h : a < s.sp - n * ws.length ∨ s.sp ≤ a) (hn : 0 < n) (hfit : n * ws.length ≤ s.sp) :
    (pushAll n s ws).mem a = s.mem a := by
  induction ws generalizing s with
  | nil => rfl
  | cons w ws ih =>
      rw [List.length_cons, Nat.mul_succ] at h hfit
      have hsp : (push n s w).sp = s.sp - n := rfl
      rw [pushAll, List.foldl_cons, ← pushAll, ih (by omega) (by omega)]
      exact Function.update_of_ne (by omega) _ _

/-- **Pops read the pushed words back in reverse.** -/
theorem words_pushAll {s : Stack W} {ws : List W} (hn : 0 < n) (hfit : n * ws.length ≤ s.sp) :
    words n (pushAll n s ws).mem (pushAll n s ws).sp ws.length = ws.reverse := by
  induction ws generalizing s with
  | nil => rfl
  | cons w ws ih =>
      rw [List.length_cons, Nat.mul_succ] at hfit
      have hsp : (push n s w).sp = s.sp - n := rfl
      have hbottom : (pushAll n (push n s w) ws).sp + n * ws.length = s.sp - n := by
        rw [pushAll_sp]
        omega
      rw [pushAll, List.foldl_cons, ← pushAll, List.length_cons, words, ih (by omega), hbottom,
        List.reverse_cons, pushAll_other (.inr (by omega)) hn (by omega)]
      exact congrArg (ws.reverse ++ [·]) (Function.update_self _ _ _)

end Stack

end ZeptoOS.Lib
