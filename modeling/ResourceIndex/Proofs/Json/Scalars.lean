import ResourceIndex.Json.Printer
import ResourceIndex.Json.Reader
import ResourceIndex.Proofs.Text.Digits
/-
Strings and numbers are read back from their texts. A string ends at its closing quote, whatever
follows; a number ends where a character follows that no number can go on with.
-/
namespace ResourceIndex.Json

open Text

variable {s r : List Char} {c : Char} {n : Int} {v : Json}

theorem hexValue?_digitChar : ∀ d < 16, hexValue? (Nat.digitChar d) = some d := by decide

theorem unquote_control (hc : c.toNat < 32) (r : List Char) :
    unquote ('\\' :: 'u' :: '0' :: '0' :: Nat.digitChar (c.toNat / 16) ::
      Nat.digitChar (c.toNat % 16) :: r) = (unquote r).map fun p => (c :: p.1, p.2) := by
  have hfour : hexFour? '0' '0' (Nat.digitChar (c.toNat / 16)) (Nat.digitChar (c.toNat % 16)) =
      some c.toNat := by
    have hzero : hexValue? '0' = some 0 := rfl
    simp only [hexFour?, hzero, hexValue?_digitChar _ (show c.toNat / 16 < 16 by omega),
      hexValue?_digitChar _ (show c.toNat % 16 < 16 by omega), Option.bind_eq_bind,
      Option.bind_some, Option.pure_def, Option.some.injEq]
    omega
  have hlow : ¬ 0xDC00 ≤ c.toNat := by omega
  have hhigh : ¬ 0xD800 ≤ c.toNat := by omega
  simp only [unquote, hfour, hlow, hhigh, decide_false, Bool.false_and, Bool.false_eq_true,
    if_false, Char.ofNat_toNat]

theorem unquote_short {x : Char} (hx : shortEscape? x = some c) (r : List Char) :
    unquote ('\\' :: x :: r) = (unquote r).map fun p => (c :: p.1, p.2) := by
  have hu : x ≠ 'u' := by
    rintro rfl
    cases hx
  rw [unquote, hx]
  exact fun _ _ _ _ _ h => absurd h hu

theorem unquote_plain (hquote : c ≠ '"') (hback : c ≠ '\\') (hc : ¬ c.toNat < 32)
    (r : List Char) : unquote (c :: r) = (unquote r).map fun p => (c :: p.1, p.2) := by
  rw [unquote]
  · simp only [hc, hback, decide_false, Bool.or_self, Bool.false_eq_true, if_false]
  · exact hquote
  · exact fun _ _ _ _ _ h => absurd h hback
  · exact fun _ _ h => absurd h hback

/-- What stands for a character is read as this character. -/
theorem unquote_escaped (c : Char) (r : List Char) :
    unquote (escaped c ++ r) = (unquote r).map fun p => (c :: p.1, p.2) := by
  rw [escaped]
  repeat' split
  any_goals
    subst c
    exact unquote_short rfl r
  · rename_i hc
    exact unquote_control hc r
  · exact unquote_plain ‹c ≠ '"'› ‹c ≠ '\\'› ‹¬ c.toNat < 32› r

theorem unquote_flatMap_escaped (s r : List Char) :
    unquote (s.flatMap escaped ++ '"' :: r) = some (s, r) := by
  induction s with
  | nil => rw [List.flatMap_nil, List.nil_append, unquote]
  | cons c s ih => rw [List.flatMap_cons, List.append_assoc, unquote_escaped, ih, Option.map_some]

/-- What follows, if anything, is what can stand behind a value in an array or an object. -/
def Follows (r : List Char) : Prop := ∀ c ∈ r.head?, c ∈ [',', ']', '\x7d']

theorem follows_nil : Follows [] := fun _ h => nomatch h

theorem Follows.head?_append_ne (hr : Follows r) (hc : c ∉ [',', ']', '\x7d'])
    (hs : s.head? ≠ some c) : (s ++ r).head? ≠ some c := by
  cases s with
  | nil => exact fun h => hc (hr c h)
  | cons x s => exact hs

theorem Follows.endsDigits (hr : Follows r) : EndsDigits r := by
  have hnone : ∀ c ∈ [',', ']', '\x7d'], c.isDigit = false := by
    simp only [List.forall_mem_cons]
    exact ⟨rfl, rfl, rfl, fun c hc => nomatch hc⟩
  exact fun c hc => hnone c (hr c hc)

theorem digits?_append (hr : Follows r) (negative : Bool) (s : List Char) :
    digits? negative (s ++ r) = (digits? negative s).map fun p => (p.1, p.2 ++ r) := by
  simp only [digits?, takeWhile_isDigit_append hr.endsDigits,
    dropWhile_isDigit_append hr.endsDigits]
  split
  · rfl
  · rfl

theorem exponent?_of_unsigned (hminus : s.head? ≠ some '-') (hplus : s.head? ≠ some '+') :
    exponent? s = digits? false s := by
  rw [exponent?]
  · rintro t rfl
    exact hminus rfl
  · rintro t rfl
    exact hplus rfl

theorem exponent?_append (hr : Follows r) (s : List Char) :
    exponent? (s ++ r) = (exponent? s).map fun p => (p.1, p.2 ++ r) := by
  by_cases hminus : s.head? = some '-'
  · obtain ⟨t, rfl⟩ := List.head?_eq_some_iff.mp hminus
    exact digits?_append hr true t
  by_cases hplus : s.head? = some '+'
  · obtain ⟨t, rfl⟩ := List.head?_eq_some_iff.mp hplus
    exact digits?_append hr false t
  · rw [exponent?_of_unsigned hminus hplus, exponent?_of_unsigned
      (hr.head?_append_ne (by decide) hminus) (hr.head?_append_ne (by decide) hplus)]
    exact digits?_append hr false s

theorem wholeDigits_of_head?_ne (h : s.head? ≠ some '0') :
    wholeDigits s = s.takeWhile Char.isDigit := by
  rw [wholeDigits]
  rintro t rfl
  exact h rfl

theorem wholeDigits_append (hr : Follows r) (s : List Char) :
    wholeDigits (s ++ r) = wholeDigits s := by
  by_cases hs : s.head? = some '0'
  · obtain ⟨t, rfl⟩ := List.head?_eq_some_iff.mp hs
    rfl
  · rw [wholeDigits_of_head?_ne hs, wholeDigits_of_head?_ne (hr.head?_append_ne (by decide) hs),
      takeWhile_isDigit_append hr.endsDigits]

theorem length_wholeDigits_le (s : List Char) : (wholeDigits s).length ≤ s.length := by
  by_cases hs : s.head? = some '0'
  · obtain ⟨t, rfl⟩ := List.head?_eq_some_iff.mp hs
    exact Nat.le_add_left 1 t.length
  · rw [wholeDigits_of_head?_ne hs]
    exact (List.takeWhile_sublist _).length_le

theorem partDigits_of_head?_ne (h : s.head? ≠ some '.') : partDigits s = (none, s) := by
  rw [partDigits]
  rintro t rfl
  exact h rfl

theorem partDigits_append (hr : Follows r) (s : List Char) :
    partDigits (s ++ r) = ((partDigits s).1, (partDigits s).2 ++ r) := by
  by_cases hs : s.head? = some '.'
  · obtain ⟨t, rfl⟩ := List.head?_eq_some_iff.mp hs
    rw [List.cons_append, partDigits, partDigits, takeWhile_isDigit_append hr.endsDigits,
      dropWhile_isDigit_append hr.endsDigits]
  · rw [partDigits_of_head?_ne hs, partDigits_of_head?_ne (hr.head?_append_ne (by decide) hs)]

variable {negative : Bool} {whole : List Char} {part : Option (List Char)}

theorem scaled?_of_no_exponent (hlower : s.head? ≠ some 'e') (hupper : s.head? ≠ some 'E') :
    scaled? negative whole part s = (plain? negative whole part).map fun v => (v, s) := by
  cases s with
  | nil => rfl
  | cons c s =>
    have hc : ¬ (c = 'e' ∨ c = 'E') := by
      rintro (rfl | rfl)
      · exact hlower rfl
      · exact hupper rfl
    rw [scaled?, if_neg (by simpa using hc)]

theorem scaled?_of_exponent (hc : c = 'e' ∨ c = 'E') :
    scaled? negative whole part (c :: s) = (exponent? s).bind fun p =>
      (fraction? negative whole (part.getD []) p.1).map fun v => (v, p.2) := by
  rw [scaled?, if_pos (by simpa using hc)]
  cases exponent? s with
  | none => rfl
  | some p =>
    simp only [Option.bind_eq_bind, Option.bind_some, Option.pure_def, Option.map_eq_bind]
    rfl

theorem scaled?_append (hr : Follows r) (s : List Char) :
    scaled? negative whole part (s ++ r) =
      (scaled? negative whole part s).map fun p => (p.1, p.2 ++ r) := by
  have hexponent : ∀ c t, c = 'e' ∨ c = 'E' → scaled? negative whole part (c :: t ++ r) =
      (scaled? negative whole part (c :: t)).map fun p => (p.1, p.2 ++ r) := by
    intro c t hc
    rw [List.cons_append, scaled?_of_exponent hc, scaled?_of_exponent hc, exponent?_append hr]
    cases exponent? t with
    | none => rfl
    | some p => simp only [Option.map_some, Option.bind_some, Option.map_map, Function.comp_def]
  by_cases hlower : s.head? = some 'e'
  · obtain ⟨t, rfl⟩ := List.head?_eq_some_iff.mp hlower
    exact hexponent 'e' t (.inl rfl)
  by_cases hupper : s.head? = some 'E'
  · obtain ⟨t, rfl⟩ := List.head?_eq_some_iff.mp hupper
    exact hexponent 'E' t (.inr rfl)
  · rw [scaled?_of_no_exponent hlower hupper, scaled?_of_no_exponent
      (hr.head?_append_ne (by decide) hlower) (hr.head?_append_ne (by decide) hupper),
      Option.map_map]
    rfl

theorem unsigned?_append (hr : Follows r) (negative : Bool) (s : List Char) :
    unsigned? negative (s ++ r) = (unsigned? negative s).map fun p => (p.1, p.2 ++ r) := by
  simp only [unsigned?, wholeDigits_append hr,
    List.drop_append_of_le_length (length_wholeDigits_le s), partDigits_append hr]
  split
  · rfl
  · exact scaled?_append hr _

theorem number?_of_head?_ne (h : s.head? ≠ some '-') : number? s = unsigned? false s := by
  rw [number?]
  rintro t rfl
  exact h rfl

/-- What follows a value takes no part in a number before it. -/
theorem number?_append (hr : Follows r) (s : List Char) :
    number? (s ++ r) = (number? s).map fun p => (p.1, p.2 ++ r) := by
  by_cases hs : s.head? = some '-'
  · obtain ⟨t, rfl⟩ := List.head?_eq_some_iff.mp hs
    exact unsigned?_append hr true t
  · rw [number?_of_head?_ne hs, number?_of_head?_ne (hr.head?_append_ne (by decide) hs),
      unsigned?_append hr]

/-- A number starts with a minus sign or a digit. -/
theorem exists_cons_of_number? {p : Json × List Char} (h : number? s = some p) :
    ∃ c t, s = c :: t ∧ (c = '-' ∨ c.isDigit = true) := by
  cases s with
  | nil => cases h
  | cons c t =>
    refine ⟨c, t, rfl, ?_⟩
    by_contra hc
    obtain ⟨hminus, hdigit⟩ := not_or.mp hc
    have hzero : c ≠ '0' := by
      rintro rfl
      exact hdigit rfl
    have hwhole : wholeDigits (c :: t) = [] := by
      rw [wholeDigits_of_head?_ne (by simpa using hzero), List.takeWhile_cons_of_neg hdigit]
    rw [number?_of_head?_ne (by simpa using hminus), unsigned?, hwhole] at h
    cases h

theorem wholeDigits_natText (k : Nat) : wholeDigits (natText k) = natText k := by
  by_cases hk : 0 < k
  · rw [wholeDigits_of_head?_ne (head?_natText_ne hk), List.takeWhile_eq_self_iff]
    exact fun c hc => isDigit_of_mem_natText hc
  · cases Nat.eq_zero_of_not_pos hk
    rfl

theorem unsigned?_natText (negative : Bool) (k : Nat) :
    unsigned? negative (natText k) = (whole? negative (natText k)).map fun v => (v, []) := by
  have hpart : partDigits [] = (none, []) := rfl
  have hne : (natText k).isEmpty = false := by simpa using natText_ne_nil k
  simp only [unsigned?, wholeDigits_natText, List.drop_length, hpart, hne]
  rfl

theorem whole?_natText_of_neg (hlow : Int64.minValue.toInt ≤ n) (hn : n < 0) :
    whole? true (natText n.natAbs) = some (.int n) := by
  have hmin : Int64.minValue.toInt = -9223372036854775808 := by decide
  have hsize : UInt64.size = 18446744073709551616 := by decide
  have hfits : ¬ (n.natAbs = 0 ∨ -(n.natAbs : Int) < Int64.minValue.toInt ∨
      UInt64.size ≤ n.natAbs) := by
    rw [hmin] at hlow ⊢
    omega
  simp only [not_or] at hfits
  obtain ⟨hzero, hlow', hsize'⟩ := hfits
  simp only [whole?, digitsValue_natText, hzero, hlow', hsize', decide_false, Bool.or_self,
    Bool.and_false, Bool.false_eq_true, if_false, if_true, Option.some.injEq, Json.int.injEq]
  omega

theorem whole?_natText_of_nonneg (hn : 0 ≤ n) (hhigh : n < UInt64.size) :
    whole? false (natText n.natAbs) = some (.int n) := by
  have hfits : ¬ UInt64.size ≤ n.natAbs := by omega
  simp only [whole?, digitsValue_natText, hfits, decide_false, Bool.or_self, Bool.false_and,
    Bool.false_eq_true, if_false, Option.some.injEq, Json.int.injEq]
  omega

/-- Whole numbers are read as such if they are signed or unsigned numbers of 64 bits. -/
theorem number?_intText (hlow : Int64.minValue.toInt ≤ n) (hhigh : n < UInt64.size) :
    number? (intText n) = some (.int n, []) := by
  by_cases hn : n < 0
  · have htext : intText n = '-' :: natText n.natAbs := by
      rw [intText, if_pos hn]
      rfl
    rw [htext, number?, unsigned?_natText, whole?_natText_of_neg hlow hn]
    rfl
  · have htext : intText n = natText n.natAbs := by
      rw [intText, if_neg hn]
      rfl
    have hminus : (natText n.natAbs).head? ≠ some '-' := by
      intro h
      cases isDigit_of_mem_natText (List.mem_of_head? h)
    rw [htext, number?_of_head?_ne hminus, unsigned?_natText,
      whole?_natText_of_nonneg (Int.not_lt.mp hn) hhigh]
    rfl

end ResourceIndex.Json
