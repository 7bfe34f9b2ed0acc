import Mathlib.Algebra.Group.Nat.Defs
import Mathlib.Data.List.TakeWhile
import ResourceIndex.Text.Digits
/-
Decimal texts: a number is found again in its digits, and a reader that takes digits as long as
there are any takes just these.
-/
namespace ResourceIndex.Text

variable {m n : Int} {c : Char} {r : List Char}

theorem natText_inj {m n : Nat} (h : natText m = natText n) : m = n := by
  have hvalue := congrArg (fun s => Nat.ofDigitChars 10 s 0) h
  simpa only [natText, Nat.ofDigitChars_toDigits (by decide : 1 < 10) (Nat.le_refl 10)] using hvalue

theorem isDigit_of_mem_natText {n : Nat} (h : c ∈ natText n) : c.isDigit = true :=
  Nat.isDigit_of_mem_toDigits (by decide) (Nat.le_refl 10) h

theorem notMem_intText (hd : c.isDigit = false) (hc : c ≠ '-') (n : Int) : c ∉ intText n := by
  intro hm
  rcases List.mem_append.mp hm with hm | hm
  · split at hm
    · exact hc (List.mem_singleton.mp hm)
    · exact absurd hm List.not_mem_nil
  · exact absurd (isDigit_of_mem_natText hm) (by simp [hd])

theorem intText_inj (h : intText m = intText n) : m = n := by
  have hminus : ∀ k : Nat, '-' ∉ natText k := fun k hm =>
    absurd (isDigit_of_mem_natText hm) (by decide)
  unfold intText at h
  by_cases hm : m < 0 <;> by_cases hn : n < 0
  · rw [if_pos hm, if_pos hn] at h
    have := natText_inj (List.append_cancel_left h)
    omega
  · rw [if_pos hm, if_neg hn, List.nil_append] at h
    have hhead : '-' ∈ natText n.natAbs := h ▸ List.mem_cons_self
    exact absurd hhead (hminus n.natAbs)
  · rw [if_neg hm, if_pos hn, List.nil_append] at h
    have hhead : '-' ∈ natText m.natAbs := h ▸ List.mem_cons_self
    exact absurd hhead (hminus m.natAbs)
  · rw [if_neg hm, if_neg hn] at h
    have := natText_inj h
    omega

theorem digitsValue_eq_ofDigitChars (s : List Char) : digitsValue s = Nat.ofDigitChars 10 s 0 := by
  rw [digitsValue, Nat.ofDigitChars_eq_foldl]
  congr 1
  funext n c
  rw [Nat.mul_comm]
  rfl

@[simp] theorem digitsValue_natText (n : Nat) : digitsValue (natText n) = n := by
  rw [digitsValue_eq_ofDigitChars]
  exact Nat.ofDigitChars_ten_toDigits

theorem digitsValue_replicate_append (k : Nat) (s : List Char) :
    digitsValue (List.replicate k '0' ++ s) = digitsValue s := by
  rw [digitsValue_eq_ofDigitChars, Nat.ofDigitChars_append, Nat.ofDigitChars_replicate_zero,
    Nat.mul_zero, digitsValue_eq_ofDigitChars]

theorem digitsValue_append_replicate (k : Nat) (s : List Char) :
    digitsValue (s ++ List.replicate k '0') = digitsValue s * 10 ^ k := by
  rw [digitsValue_eq_ofDigitChars, Nat.ofDigitChars_append, Nat.ofDigitChars_replicate_zero,
    digitsValue_eq_ofDigitChars, Nat.mul_comm]

theorem natText_ne_nil (n : Nat) : natText n ≠ [] := Nat.toDigits_ne_nil

/-- Only the number zero starts with a zero. -/
theorem head?_natText_ne {n : Nat} (h : 0 < n) : (natText n).head? ≠ some '0' := by
  induction n using Nat.strongRecOn with
  | ind n ih =>
    rw [natText]
    by_cases hn : n < 10
    · have hdigits : ∀ k < 10, 0 < k → [Nat.digitChar k].head? ≠ some '0' := by decide
      rw [Nat.toDigits_of_lt_base hn]
      exact hdigits n hn h
    · rw [Nat.toDigits_of_base_le (by decide) (Nat.le_of_not_lt hn),
        List.head?_append, Option.or_of_isSome (by simp [Nat.toDigits_ne_nil])]
      exact ih (n / 10) (by omega) (by omega)

/-- The text does not go on with a digit. -/
def EndsDigits (r : List Char) : Prop := ∀ c ∈ r.head?, c.isDigit = false

theorem takeWhile_isDigit_append (hr : EndsDigits r) (s : List Char) :
    (s ++ r).takeWhile Char.isDigit = s.takeWhile Char.isDigit := by
  induction s with
  | nil =>
    cases r with
    | nil => rfl
    | cons c r => exact List.takeWhile_cons_of_neg (by simp [hr c rfl])
  | cons c s ih =>
    rw [List.cons_append, List.takeWhile_cons, List.takeWhile_cons, ih]

theorem dropWhile_isDigit_append (hr : EndsDigits r) (s : List Char) :
    (s ++ r).dropWhile Char.isDigit = s.dropWhile Char.isDigit ++ r := by
  induction s with
  | nil =>
    cases r with
    | nil => rfl
    | cons c r => exact List.dropWhile_cons_of_neg (by simp [hr c rfl])
  | cons c s ih =>
    rw [List.cons_append, List.dropWhile_cons, List.dropWhile_cons, ih]
    split
    · rfl
    · rfl

end ResourceIndex.Text
