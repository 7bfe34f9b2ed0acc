import ResourceIndex.Proofs.Json.Text
import ResourceIndex.Proofs.Number.Shortest
/-
Each finite number is read back from its text, in whichever way its digits are laid out: the decimal
that is read is the one that was laid out, and it is rounded to the number.
-/
namespace ResourceIndex.Json

open Text BinaryFormat

variable {negative : Bool} {whole part s : List Char} {c k : Nat} {t : Int}

/-- The number nearest to a decimal, if it is finite. -/
def nearest? (negative : Bool) (c : Nat) (t : Int) : Option Json :=
  let x := Binary64.ofDecimal negative c t
  if x.isFinite then some (.float x) else none

theorem fraction?_eq (negative : Bool) (whole part : List Char) (e : Int) :
    fraction? negative whole part e =
      nearest? negative (digitsValue (whole ++ part)) (e - part.length) := rfl

theorem digits?_of_all (hs : ∀ d ∈ s, d.isDigit = true) (hne : s ≠ []) (negative : Bool) :
    digits? negative s = some (if negative then -(digitsValue s : Int) else digitsValue s, []) := by
  have htake : s.takeWhile Char.isDigit = s := List.takeWhile_eq_self_iff.mpr hs
  have hdrop : s.dropWhile Char.isDigit = [] := List.dropWhile_eq_nil_iff.mpr hs
  have hempty : s.isEmpty = false := by simpa using hne
  rw [digits?, htake, hdrop, hempty]
  rfl

theorem unsigned?_point (whole part : List Char)
    (hwhole : wholeDigits (whole ++ '.' :: part) = whole) (hne : whole ≠ [])
    (hpart : ∀ d ∈ part, d.isDigit = true) (hpne : part ≠ []) (negative : Bool) :
    unsigned? negative (whole ++ '.' :: part) =
      (fraction? negative whole part 0).map fun v => (v, []) := by
  have htake : part.takeWhile Char.isDigit = part := List.takeWhile_eq_self_iff.mpr hpart
  have hdrop : part.dropWhile Char.isDigit = [] := List.dropWhile_eq_nil_iff.mpr hpart
  have hempty : whole.isEmpty = false := by simpa using hne
  have hsome : (some part == some []) = false := by simpa using hpne
  simp only [unsigned?, hwhole, List.drop_left, partDigits, htake, hdrop, hempty, hsome]
  rfl

theorem exponent?_signed (e : Int) :
    exponent? ((if e < 0 then ['-'] else ['+']) ++ natText e.natAbs) = some (e, []) := by
  have hdigits : ∀ negative, digits? negative (natText e.natAbs) =
      some (if negative then -(e.natAbs : Int) else e.natAbs, []) := by
    intro negative
    rw [digits?_of_all (fun d hd => isDigit_of_mem_natText hd) (natText_ne_nil _),
      digitsValue_natText]
  split
  · refine (hdigits true).trans ?_
    rw [if_pos rfl, show -(e.natAbs : Int) = e by omega]
  · refine (hdigits false).trans ?_
    rw [if_neg Bool.false_ne_true, show (e.natAbs : Int) = e by omega]

/-- One digit, the others behind a point if there are any, and an exponent. -/
theorem unsigned?_exponent {d : Char} (hd : d.isDigit = true) (hzero : d ≠ '0')
    (hpart : ∀ x ∈ part, x.isDigit = true) (negative : Bool) (e : Int) :
    unsigned? negative ([d] ++ (if part.isEmpty then [] else '.' :: part) ++ ['e'] ++
        (if e < 0 then ['-'] else ['+']) ++ natText e.natAbs) =
      (fraction? negative [d] part e).map fun v => (v, []) := by
  have hscaled : ∀ part', scaled? negative [d] part'
      ('e' :: ((if e < 0 then ['-'] else ['+']) ++ natText e.natAbs)) =
        (fraction? negative [d] (part'.getD []) e).map fun v => (v, []) := by
    intro part'
    rw [scaled?_of_exponent (.inl rfl), exponent?_signed]
    rfl
  have hwhole : ∀ r, EndsDigits r → wholeDigits (d :: r) = [d] := by
    intro r hr
    rw [wholeDigits_of_head?_ne (by simpa using hzero), List.takeWhile_cons_of_pos hd]
    have hnone := takeWhile_isDigit_append hr []
    rw [List.nil_append] at hnone
    rw [hnone]
    rfl
  rw [List.append_assoc _ (if e < 0 then ['-'] else ['+'])]
  generalize (if e < 0 then ['-'] else ['+']) ++ natText e.natAbs = r at hscaled ⊢
  have hmark : EndsDigits ('e' :: r) := fun c hc => by
    cases hc
    rfl
  cases part with
  | nil =>
    have hpoint : partDigits ('e' :: r) = (none, 'e' :: r) := rfl
    change unsigned? negative (d :: 'e' :: r) = _
    simp only [unsigned?, hwhole _ hmark, List.length_singleton, List.drop_succ_cons,
      List.drop_zero, hpoint, hscaled]
    rfl
  | cons x part =>
    have hpoint : partDigits ('.' :: (x :: part ++ 'e' :: r)) = (some (x :: part), 'e' :: r) := by
      rw [partDigits, takeWhile_isDigit_append hmark, dropWhile_isDigit_append hmark,
        List.takeWhile_eq_self_iff.mpr hpart, List.dropWhile_eq_nil_iff.mpr hpart]
      rfl
    rw [List.append_assoc]
    change unsigned? negative (d :: '.' :: (x :: part ++ 'e' :: r)) = _
    have hend : EndsDigits ('.' :: (x :: part ++ 'e' :: r)) := fun c hc => by
      cases hc
      rfl
    simp only [unsigned?, hwhole _ hend, List.length_singleton, List.drop_succ_cons,
      List.drop_zero, hpoint, hscaled]
    rfl

theorem wholeDigits_point (hall : ∀ d ∈ whole, d.isDigit = true) (hne : whole ≠ [])
    (hzero : whole.head? ≠ some '0') (part : List Char) :
    wholeDigits (whole ++ '.' :: part) = whole := by
  have hpoint : EndsDigits ('.' :: part) := fun c hc => by
    cases hc
    rfl
  have hhead : (whole ++ '.' :: part).head? ≠ some '0' := by
    rwa [List.head?_append_of_ne_nil _ hne]
  rw [wholeDigits_of_head?_ne hhead, takeWhile_isDigit_append hpoint,
    List.takeWhile_eq_self_iff.mpr hall]

theorem isDigit_of_mem_replicate (k : Nat) : ∀ d ∈ List.replicate k '0', d.isDigit = true := by
  intro d hd
  rw [List.eq_of_mem_replicate hd]
  rfl

/-- A digit, the others behind the point, and an exponent. -/
theorem unsigned?_of_first_digit (hc : 0 < c) (negative : Bool) (e : Int) :
    unsigned? negative ((natText c).take 1 ++
        (if ((natText c).drop 1).isEmpty then [] else '.' :: (natText c).drop 1) ++ ['e'] ++
        (if e < 0 then ['-'] else ['+']) ++ natText e.natAbs) =
      (nearest? negative c (e - (natText c).length + 1)).map fun v => (v, []) := by
  have hall : ∀ d ∈ natText c, d.isDigit = true := fun d hd => isDigit_of_mem_natText hd
  have hhead := head?_natText_ne hc
  have hvalue := digitsValue_natText c
  obtain ⟨d, part, htext⟩ := List.exists_cons_of_ne_nil (natText_ne_nil c)
  rw [htext] at hall hhead hvalue ⊢
  obtain ⟨hd, hpart⟩ := List.forall_mem_cons.mp hall
  have hread := unsigned?_exponent hd (by simpa using hhead) hpart negative e
  have hexponent : e - part.length = e - (d :: part).length + 1 := by
    rw [List.length_cons]
    omega
  have hjoin : [d] ++ part = d :: part := rfl
  rw [fraction?_eq, hexponent, hjoin, hvalue] at hread
  exact hread

/-- Zeros behind the point, and then the digits. -/
theorem unsigned?_of_zeros_before (negative : Bool) (c k : Nat) :
    unsigned? negative (['0', '.'] ++ List.replicate k '0' ++ natText c) =
      (nearest? negative c (-(k + (natText c).length))).map fun v => (v, []) := by
  have hpart : ∀ d ∈ List.replicate k '0' ++ natText c, d.isDigit = true := fun d hd =>
    (List.mem_append.mp hd).elim (isDigit_of_mem_replicate k d) isDigit_of_mem_natText
  have hread := unsigned?_point ['0'] (List.replicate k '0' ++ natText c) rfl
    (List.cons_ne_nil _ _) hpart
    (List.append_ne_nil_of_right_ne_nil _ (natText_ne_nil c)) negative
  have hexponent : (0 : Int) - (List.replicate k '0' ++ natText c).length =
      -(k + (natText c).length) := by
    rw [List.length_append, List.length_replicate]
    omega
  have hvalue : digitsValue (['0'] ++ (List.replicate k '0' ++ natText c)) = c := by
    rw [← List.append_assoc, ← List.replicate_one, List.replicate_append_replicate,
      digitsValue_replicate_append, digitsValue_natText]
  rw [fraction?_eq, hexponent, hvalue] at hread
  exact hread

/-- The digits, zeros up to the point, and one behind it. -/
theorem unsigned?_of_zeros_behind (hc : 0 < c) (negative : Bool) (k : Nat) :
    unsigned? negative (natText c ++ List.replicate k '0' ++ ['.', '0']) =
      (nearest? negative (c * 10 ^ (k + 1)) (-1)).map fun v => (v, []) := by
  have hne := natText_ne_nil c
  have hwhole : ∀ d ∈ natText c ++ List.replicate k '0', d.isDigit = true := fun d hd =>
    (List.mem_append.mp hd).elim isDigit_of_mem_natText (isDigit_of_mem_replicate k d)
  have hhead : (natText c ++ List.replicate k '0').head? ≠ some '0' := by
    rw [List.head?_append_of_ne_nil _ hne]
    exact head?_natText_ne hc
  have hjoined := List.append_ne_nil_of_left_ne_nil hne (List.replicate k '0')
  have hread := unsigned?_point (natText c ++ List.replicate k '0') ['0']
    (wholeDigits_point hwhole hjoined hhead _) hjoined (isDigit_of_mem_replicate 1)
    (List.cons_ne_nil _ _) negative
  have hvalue : digitsValue (natText c ++ List.replicate k '0' ++ ['0']) = c * 10 ^ (k + 1) := by
    rw [List.append_assoc, ← List.replicate_succ', digitsValue_append_replicate,
      digitsValue_natText]
  rw [fraction?_eq, hvalue] at hread
  exact hread

/-- Digits on both sides of the point. -/
theorem unsigned?_of_digits_around (hc : 0 < c) (negative : Bool) (hk : 0 < k)
    (hlength : k < (natText c).length) :
    unsigned? negative ((natText c).take k ++ ['.'] ++ (natText c).drop k) =
      (nearest? negative c (k - (natText c).length)).map fun v => (v, []) := by
  have hall : ∀ d ∈ natText c, d.isDigit = true := fun d hd => isDigit_of_mem_natText hd
  have htake : (natText c).take k ≠ [] := by
    rw [Ne, List.take_eq_nil_iff, not_or]
    exact ⟨hk.ne', natText_ne_nil c⟩
  have hdrop : (natText c).drop k ≠ [] := by
    rw [Ne, List.drop_eq_nil_iff]
    omega
  have hhead : ((natText c).take k).head? ≠ some '0' := by
    rw [List.head?_take, if_neg hk.ne']
    exact head?_natText_ne hc
  have hread := unsigned?_point ((natText c).take k) ((natText c).drop k)
    (wholeDigits_point (fun d hd => hall d (List.mem_of_mem_take hd)) htake hhead _)
    htake (fun d hd => hall d (List.mem_of_mem_drop hd)) hdrop negative
  have hexponent : (0 : Int) - ((natText c).drop k).length = k - (natText c).length := by
    rw [List.length_drop]
    omega
  rw [fraction?_eq, List.take_append_drop, digitsValue_natText, hexponent] at hread
  rw [List.append_assoc]
  exact hread

/-- What is read of digits that were laid out is a decimal of the same value. -/
theorem unsigned?_layout (hc : 0 < c) (negative : Bool) (t : Int) :
    ∃ d u, decimal d u = decimal c t ∧ unsigned? negative (Binary64.layout (natText c) t) =
      (nearest? negative d u).map fun v => (v, []) := by
  have hlength : 0 < (natText c).length := List.length_pos_iff.mpr (natText_ne_nil c)
  simp only [Binary64.layout]
  split
  · refine ⟨c, t, rfl, (unsigned?_of_first_digit hc negative _).trans ?_⟩
    rw [show ((natText c).length : Int) + t - 1 - (natText c).length + 1 = t by ring]
  split
  · refine ⟨c, t, rfl, (unsigned?_of_zeros_before negative c _).trans ?_⟩
    rw [Int.toNat_of_nonneg (by omega),
      show -(-((natText c).length + t - 1) - 1 + ((natText c).length : Int)) = t by ring]
  split
  · rename_i ht
    refine ⟨c * 10 ^ (t.toNat + 1), -1, ?_, unsigned?_of_zeros_behind hc negative _⟩
    rw [decimal, decimal, zpow_of_nonneg _ ht]
    push_cast
    rw [pow_succ, zpow_neg_one]
    ring
  · refine ⟨c, t, rfl, (unsigned?_of_digits_around hc negative ?_ ?_).trans ?_⟩
    · omega
    · omega
    · rw [Int.toNat_of_nonneg (by omega),
        show ((natText c).length : Int) + t - 1 + 1 - (natText c).length = t by ring]

theorem head?_ne_of_unsigned? {p : Json × List Char} (h : unsigned? negative s = some p) :
    s.head? ≠ some '-' := by
  intro hminus
  obtain ⟨r, rfl⟩ := List.head?_eq_some_iff.mp hminus
  cases h

theorem make_magnitude (x : Binary64) : Binary64.make x.isNegative x.magnitude = x := by
  obtain ⟨bits⟩ := x
  have hbits : bits.toNat < 2 ^ 64 := bits.toNat_lt
  have hsign : Binary64.signBit = 2 ^ 63 := rfl
  have hsum : bits.toNat % Binary64.signBit +
      (if decide (Binary64.signBit ≤ bits.toNat) = true then Binary64.signBit else 0) =
        bits.toNat := by
    rw [hsign]
    split
    · rename_i h
      have := of_decide_eq_true h
      omega
    · rename_i h
      have := of_decide_eq_false (Bool.not_eq_true _ ▸ h)
      omega
  rw [Binary64.make, Binary64.magnitude, Binary64.isNegative, hsum, UInt64.ofNat_toNat]

/-- Each finite number is read back from its text. -/
theorem readsBack_of_isFinite {x : Binary64} (h : x.isFinite = true) : ReadsBack x := by
  refine ⟨h, ?_⟩
  suffices hbody : ∃ body, x.text = (if x.isNegative then ['-'] else []) ++ body ∧
      unsigned? x.isNegative body = some (.float x, []) by
    obtain ⟨body, htext, hread⟩ := hbody
    rw [htext]
    cases hsign : x.isNegative with
    | true =>
      rw [hsign] at hread
      exact hread
    | false =>
      rw [hsign] at hread
      exact (number?_of_head?_ne (head?_ne_of_unsigned? hread)).trans hread
  have hnearest : ∀ d u, double.ofDecimal d u = x.magnitude →
      nearest? x.isNegative d u = some (.float x) := by
    intro d u hd
    have hx : Binary64.ofDecimal x.isNegative d u = x := by
      rw [Binary64.ofDecimal, hd, make_magnitude]
    simp only [nearest?, hx, h, if_true]
  rw [Binary64.text]
  by_cases hzero : x.magnitude = 0
  · refine ⟨['0', '.', '0'], ?_, ?_⟩
    · simp only [hzero, if_true]
    · have hread := unsigned?_point ['0'] ['0'] rfl (List.cons_ne_nil _ _)
        (fun d hd => by rw [List.mem_singleton.mp hd]; rfl) (List.cons_ne_nil _ _) x.isNegative
      have hdecimal : double.ofDecimal (digitsValue (['0'] ++ ['0'])) (0 - ['0'].length) =
          x.magnitude := by
        rw [hzero]
        rfl
      rw [fraction?_eq, hnearest _ _ hdecimal] at hread
      exact hread
  · have hfinite : x.magnitude < double.infinity := of_decide_eq_true h
    have hnears := nears_shortest (f := double) (by rw [hidden_double]; decide) hzero
    have hc : 0 < (double.shortest x.magnitude).1 :=
      pos_of_nears hzero hfinite hnears
    obtain ⟨d, u, hvalue, hread⟩ := unsigned?_layout hc x.isNegative (double.shortest x.magnitude).2
    rw [← hvalue] at hnears
    rw [hnearest d u (ofDecimal_eq hzero hfinite hnears)] at hread
    refine ⟨_, ?_, hread⟩
    simp only [hzero, if_false]
    rfl

end ResourceIndex.Json
