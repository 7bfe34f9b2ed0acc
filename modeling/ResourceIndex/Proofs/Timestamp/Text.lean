import ResourceIndex.Proofs.Text.Digits
import ResourceIndex.Timestamp.Text
/-
A moment is read back from its text: years with and without a sign, leap seconds, and fractions
that are cut to the groups of digits that say something. Only a leap second within a minute is read
as another moment, which is the second that follows.
-/
namespace ResourceIndex.Timestamp

open Text

variable {w n width : Nat} {r s : List Char} {c : Char}

theorem isDigit_of_mem_padded (h : c ∈ padded w n) : c.isDigit = true := by
  rcases List.mem_append.mp h with h | h
  · rw [List.eq_of_mem_replicate h]
    rfl
  · exact isDigit_of_mem_natText h

theorem digitsValue_padded (w n : Nat) : digitsValue (padded w n) = n := by
  rw [padded, digitsValue_replicate_append]
  exact digitsValue_natText n

theorem length_padded (hw : 0 < w) (hn : n < 10 ^ w) : (padded w n).length = w := by
  have hlen := (Nat.length_toDigits_le_iff (by decide : 1 < 10) hw).mpr hn
  rw [padded, List.length_append, List.length_replicate]
  omega

theorem padded_ne_nil (w n : Nat) : padded w n ≠ [] :=
  List.append_ne_nil_of_right_ne_nil _ Nat.toDigits_ne_nil

theorem exists_cons_of_padded (w n : Nat) (r : List Char) :
    ∃ c t, padded w n ++ r = c :: t ∧ c.isDigit = true := by
  cases hp : padded w n with
  | nil => exact absurd hp (padded_ne_nil w n)
  | cons c t => exact ⟨c, t ++ r, rfl, isDigit_of_mem_padded (hp ▸ List.mem_cons_self)⟩

theorem dropBlanks_of_not_isBlank (hc : isBlank c = false) (s : List Char) :
    dropBlanks (c :: s) = c :: s := List.dropWhile_cons_of_neg (by simp [hc])

theorem isBlank_of_isDigit (h : c.isDigit = true) : isBlank c = false := by
  rw [Char.isDigit_iff_toNat] at h
  obtain ⟨hlow, hhigh⟩ := h
  change 48 ≤ c.toNat at hlow
  change c.toNat ≤ 57 at hhigh
  simp only [isBlank, Bool.or_eq_false_iff, Bool.and_eq_false_iff, decide_eq_false_iff_not,
    beq_eq_false_iff_ne]
  omega

/-- There is nothing to drop in front of digits. -/
theorem dropBlanks_padded_append (w n : Nat) (r : List Char) :
    dropBlanks (padded w n ++ r) = padded w n ++ r := by
  obtain ⟨c, t, heq, hc⟩ := exists_cons_of_padded w n r
  rw [heq, dropBlanks_of_not_isBlank (isBlank_of_isDigit hc)]

theorem number?_padded (hlen : (padded w n).length ≤ width)
    (hend : (padded w n).length = width ∨ EndsDigits r) :
    number? width (padded w n ++ r) = some (n, r) := by
  have hall : (padded w n).takeWhile Char.isDigit = padded w n :=
    List.takeWhile_eq_self_iff.mpr fun c hc => isDigit_of_mem_padded hc
  have hdigits : ((padded w n ++ r).take width).takeWhile Char.isDigit = padded w n := by
    rw [List.take_append, List.take_of_length_le hlen]
    rcases hend with hwidth | hend
    · rw [hwidth, Nat.sub_self, List.take_zero, List.append_nil, hall]
    · have hrest : EndsDigits (r.take (width - (padded w n).length)) := by
        intro c hc
        cases r with
        | nil => rw [List.take_nil] at hc; cases hc
        | cons x r =>
          cases hk : width - (padded w n).length with
          | zero => rw [hk] at hc; cases hc
          | succ k => rw [hk] at hc; exact hend c hc
      rw [takeWhile_isDigit_append hrest, hall]
  have hne : (padded w n).isEmpty = false := by simpa using padded_ne_nil w n
  simp only [number?, hdigits, hne, digitsValue_padded, List.drop_left']
  rfl

theorem numberThen?_padded (hw : 0 < w) (hn : n < 10 ^ w) (hc : isBlank c = false)
    (r : List Char) : numberThen? w c (padded w n ++ c :: r) = some (n, r) := by
  have hlen := length_padded hw hn
  rw [numberThen?, dropBlanks_padded_append,
    number?_padded (Nat.le_of_eq hlen) (.inl hlen), Option.bind_eq_bind, Option.bind_some]
  simp only [dropBlanks_of_not_isBlank hc, if_true]

theorem signed_padded (n : Nat) (r : List Char) :
    year?.signed (padded 4 n ++ '-' :: r) = some (n, r) := by
  have hend : EndsDigits ('-' :: r) := fun c hc => by cases hc; rfl
  have hlen : (padded 4 n).length ≤ (padded 4 n ++ '-' :: r).length := by
    rw [List.length_append]
    exact Nat.le_add_right _ _
  rw [year?.signed, number?_padded hlen (.inr hend), Option.bind_eq_bind, Option.bind_some]
  simp only [dropBlanks_of_not_isBlank (show isBlank '-' = false by decide)]

theorem year?_padded (h : n < 10000) (r : List Char) :
    year? (padded 4 n ++ '-' :: r) = some ((n : Int), r) := by
  obtain ⟨c, t, heq, hc⟩ := exists_cons_of_padded 4 n ('-' :: r)
  rw [year?, dropBlanks_padded_append]
  split
  · rename_i hminus
    rw [heq] at hminus
    cases hminus
    cases hc
  · rename_i hplus
    rw [heq] at hplus
    cases hplus
    cases hc
  · rw [numberThen?_padded (by decide) h (by decide)]
    rfl

theorem year?_yearText (y : Int) (r : List Char) :
    year? (yearText y ++ '-' :: r) = some (y, r) := by
  rw [yearText]
  split
  · rename_i hy
    rw [year?_padded (by omega), Int.toNat_of_nonneg hy.1]
  · by_cases hy : y < 0
    · rw [if_pos hy, List.cons_append, year?, dropBlanks_of_not_isBlank (by decide)]
      simp only [signed_padded, Option.map_some, Option.some.injEq, Prod.mk.injEq, and_true]
      omega
    · rw [if_neg hy, List.cons_append, year?, dropBlanks_of_not_isBlank (by decide)]
      simp only [signed_padded, Option.map_some, Option.some.injEq, Prod.mk.injEq, and_true]
      omega

theorem fraction?_padded (hw : 0 < w) (hnine : w ≤ 9) (hn : n < 10 ^ w) :
    fraction? ('.' :: padded w n ++ ['Z']) = some (n * 10 ^ (9 - w), ['Z']) := by
  have hend : EndsDigits ['Z'] := fun c hc => by cases hc; rfl
  have hall : (padded w n).takeWhile Char.isDigit = padded w n :=
    List.takeWhile_eq_self_iff.mpr fun c hc => isDigit_of_mem_padded hc
  have hdrop : (padded w n).dropWhile Char.isDigit = [] :=
    List.dropWhile_eq_nil_iff.mpr fun c hc => isDigit_of_mem_padded hc
  have hne : (padded w n).isEmpty = false := by simpa using padded_ne_nil w n
  have hlen := length_padded hw hn
  have hkept : (padded w n).take 9 = padded w n := List.take_of_length_le (by omega)
  simp only [List.cons_append, fraction?, takeWhile_isDigit_append hend,
    dropWhile_isDigit_append hend, hall, hdrop, hne, hkept, hlen, Bool.false_eq_true, if_false,
    List.nil_append, digitsValue_append_replicate, digitsValue_padded]

theorem fraction?_fractionText (hn : n < 1000000000) :
    fraction? (fractionText n ++ ['Z']) = some (n, ['Z']) := by
  rw [fractionText]
  split
  · subst n
    rfl
  split
  · rw [fraction?_padded (by decide) (by decide) (by omega)]
    simp only [Option.some.injEq, Prod.mk.injEq, and_true]
    omega
  split
  · rw [fraction?_padded (by decide) (by decide) (by omega)]
    simp only [Option.some.injEq, Prod.mk.injEq, and_true]
    omega
  · rw [fraction?_padded (by decide) (by decide) hn, Nat.sub_self, Nat.pow_zero, Nat.mul_one]

theorem minus_zero {c : CivilTime} (hc : c.Exists) : c.minus 0 = c := by
  obtain ⟨-, -, -, -, -, -, hhour, hminute, -⟩ := hc
  have hlow : ¬ ((c.hour * 60 + c.minute : Nat) : Int) < 0 := by omega
  have hhigh : ¬ (1440 : Int) ≤ ((c.hour * 60 + c.minute : Nat) : Int) := by omega
  have hdiv : (c.hour * 60 + c.minute) / 60 = c.hour := by omega
  have hmod : (c.hour * 60 + c.minute) % 60 = c.minute := by omega
  simp only [CivilTime.minus, Int.sub_zero, hlow, hhigh, if_false, Int.toNat_natCast, hdiv, hmod]

theorem daysInMonth_le (y : Int) (m : Nat) : CivilTime.daysInMonth y m ≤ 31 := by
  rw [CivilTime.daysInMonth]
  repeat' split
  all_goals decide

theorem ofCivil?_civil (t : Timestamp) : ofCivil? t.civil = some t := dif_pos t.real

/-- The text of a clock that shows a moment is read as this moment. -/
theorem read?_of_clock (t u : Timestamp) {second nano : Nat} (hsecond : second < 100)
    (hnano : nano < 1000000000)
    (hclock : clock t.civil.year t.civil.month t.civil.day t.civil.hour t.civil.minute second nano =
      u.civil) :
    read? (yearText t.civil.year ++ '-' :: padded 2 t.civil.month ++ '-' :: padded 2 t.civil.day ++
      'T' :: padded 2 t.civil.hour ++ ':' :: padded 2 t.civil.minute ++ ':' :: padded 2 second ++
      fractionText nano ++ ['Z']) = some u := by
  obtain ⟨-, -, -, hmonth, -, hday, hhour, hminute, -⟩ := t.real
  have hdays := daysInMonth_le t.civil.year t.civil.month
  have hlen := length_padded (w := 2) (by decide) (show t.civil.day < 10 ^ 2 by omega)
  have hlen' := length_padded (w := 2) (by decide) (show second < 10 ^ 2 by omega)
  have hzone : offset? (dropBlanks ['Z']) = some (0, []) := by decide
  simp only [read?, List.append_assoc, List.cons_append]
  rw [year?_yearText, Option.bind_eq_bind, Option.bind_some,
    numberThen?_padded (by decide) (by omega) (by decide), Option.bind_eq_bind, Option.bind_some,
    dropBlanks_padded_append, number?_padded (Nat.le_of_eq hlen) (.inl hlen),
    Option.bind_eq_bind, Option.bind_some]
  simp only [decide_true, Bool.true_or, if_true, Option.bind_eq_bind, Option.bind_some]
  rw [numberThen?_padded (by decide) (by omega) (by decide), Option.bind_some,
    numberThen?_padded (by decide) (by omega) (by decide), Option.bind_some,
    dropBlanks_padded_append, number?_padded (Nat.le_of_eq hlen') (.inl hlen'), Option.bind_some,
    fraction?_fractionText hnano, Option.bind_some, hzone, Option.bind_some, hclock,
    ofCivil?_civil]
  have hend : (dropBlanks []).isEmpty = true := rfl
  rw [if_pos hend, Option.bind_some, minus_zero u.real, ofCivil?_civil]

theorem settled_eq_self_iff (t : Timestamp) : t.settled = t ↔ t.IsSettled := by
  constructor
  · intro h
    by_contra hleap
    rw [settled, dif_neg hleap] at h
    exact absurd (congrArg (fun u : Timestamp => u.civil.second) h) (Nat.succ_ne_self _)
  · exact fun h => dif_pos h

/-- What the text of a moment is read as; a leap second is the sixtieth of its minute. -/
theorem read?_render (t : Timestamp) : read? t.render = some t.settled := by
  obtain ⟨-, -, -, -, -, -, -, -, hsecond, hnano⟩ := t.real
  by_cases hleap : 1000000000 ≤ t.civil.nano
  · simp only [render, hleap, if_true]
    refine read?_of_clock t _ (by omega) (by omega) ?_
    by_cases hlast : t.civil.second = 59
    · rw [settled, dif_pos (.inr hlast), clock, if_pos (by omega), Nat.sub_add_cancel hleap,
        ← hlast]
    · have hwithin : ¬ t.IsSettled := by
        unfold IsSettled
        omega
      rw [settled, dif_neg hwithin, clock, if_neg (by omega)]
      rfl
  · simp only [render, hleap, if_false]
    refine read?_of_clock t _ (by omega) (by omega) ?_
    rw [settled, dif_pos (.inl (by omega)), clock, if_neg (by omega)]

end ResourceIndex.Timestamp
