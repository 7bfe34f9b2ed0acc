import Mathlib.Data.List.DropRight
import ResourceIndex.Proofs.Query.Clauses
/-
Query texts one after another. A blank ends every token of a text that can be read, and no `NOT`
waits at its end; so what follows the blank is read as if it stood alone, and the clauses of both
texts are those of the joined one.
-/
namespace ResourceIndex.Query

open Text (isBlank)

namespace Token

variable {t : Token} {ts : List Token} {s rest b : List Char} {w : Char}

theorem endsWord_of_isBlank (hw : isBlank w = true) : endsWord w = true := by
  rw [endsWord, hw, Bool.true_or]

theorem ne_quote_of_isBlank (hw : isBlank w = true) : w ≠ '"' := by
  rintro rfl
  cases hw

/-- A hyphen before a blank is no sign, and neither is one at the end of the text. -/
theorem signed_append (hs : s ≠ []) (hw : isBlank w = true) (b : List Char) :
    signed (s ++ w :: b) = signed s := by
  obtain ⟨c, u, rfl⟩ := List.exists_cons_of_ne_nil hs
  by_cases hc : c = '-'
  · subst hc
    cases u with
    | nil =>
      change (!isBlank w) = false
      rw [hw, Bool.not_true]
    | cons d u => rfl
  · have hplain : ∀ u, signed (c :: u) = false := by
      intro u
      rw [← Bool.not_eq_true]
      intro hsigned
      obtain ⟨d, v, heq, -⟩ := exists_of_signed hsigned
      exact hc (List.cons.inj heq).1
    rw [List.cons_append, hplain, hplain]

theorem closeQuote?_append {p : List Char} (h : closeQuote? s = some (p, rest)) (b : List Char) :
    closeQuote? (s ++ b) = some (p, rest ++ b) := by
  rw [closeQuote?_eq_cutAt?] at h ⊢
  obtain ⟨hnot, rfl⟩ := Text.notMem_of_cutAt? h
  rw [List.append_assoc, List.cons_append, Text.cutAt?_append_cons hnot]

/-- The word of a token does not reach over a blank. -/
theorem word_append (hw : isBlank w = true) (s b : List Char) :
    (s ++ w :: b).takeWhile (fun c => !endsWord c) = s.takeWhile (fun c => !endsWord c) ∧
      (s ++ w :: b).dropWhile (fun c => !endsWord c) =
        s.dropWhile (fun c => !endsWord c) ++ w :: b := by
  have hends : ¬ (!endsWord w) = true := by
    rw [endsWord_of_isBlank hw]
    exact Bool.false_ne_true
  have htake : (w :: b).takeWhile (fun c => !endsWord c) = [] := List.takeWhile_cons_of_neg hends
  have hdrop : (w :: b).dropWhile (fun c => !endsWord c) = w :: b :=
    List.dropWhile_cons_of_neg hends
  constructor
  · rw [List.takeWhile_append, htake, List.append_nil]
    split
    · rename_i hlength
      exact ((List.takeWhile_prefix _).eq_of_length hlength).symm
    · rfl
  · rw [List.dropWhile_append, hdrop]
    split
    · rename_i hnil
      rw [List.isEmpty_iff.mp hnil, List.nil_append]
    · rfl

theorem unsigned?_of_no_quote (h : ∀ u, s.dropWhile (fun c => !endsWord c) ≠ '"' :: u)
    (negated : Bool) : unsigned? negated s = some
      (⟨negated, s.takeWhile fun c => !endsWord c, none⟩, s.dropWhile fun c => !endsWord c) := by
  rw [unsigned?]
  split
  · rename_i u hu
    exact absurd hu (h u)
  · rfl

theorem unsigned?_append {negated : Bool} (hw : isBlank w = true)
    (h : unsigned? negated s = some (t, rest)) (b : List Char) :
    unsigned? negated (s ++ w :: b) = some (t, rest ++ w :: b) := by
  obtain ⟨htake, hdrop⟩ := word_append hw s b
  by_cases hquote : ∃ u, s.dropWhile (fun c => !endsWord c) = '"' :: u
  · obtain ⟨u, hu⟩ := hquote
    rw [unsigned?, hu] at h
    obtain ⟨⟨p, behind⟩, hclose, heq⟩ := Option.map_eq_some_iff.mp h
    cases heq
    rw [unsigned?, htake, hdrop, hu]
    simp only [List.cons_append, closeQuote?_append hclose, Option.map_some]
  · rw [not_exists] at hquote
    rw [unsigned?_of_no_quote hquote] at h
    cases h
    rw [unsigned?_of_no_quote, htake, hdrop]
    intro u hu
    rw [hdrop] at hu
    cases hrest : s.dropWhile (fun c => !endsWord c) with
    | nil =>
      rw [hrest] at hu
      exact ne_quote_of_isBlank hw (List.cons.inj hu).1
    | cons c v =>
      rw [hrest] at hu
      exact hquote v (hrest.trans (congrArg (· :: v) (List.cons.inj hu).1))

/-- A token is the same if a blank and more follow its text. -/
theorem first?_append (hs : s ≠ []) (hw : isBlank w = true) (h : first? s = some (t, rest))
    (b : List Char) : first? (s ++ w :: b) = some (t, rest ++ w :: b) := by
  rw [first?_eq] at h ⊢
  rw [signed_append hs hw]
  split
  · rename_i hsigned
    rw [if_pos hsigned] at h
    have hdrop : (s ++ w :: b).drop 1 = s.drop 1 ++ w :: b := by
      obtain ⟨c, u, rfl⟩ := List.exists_cons_of_ne_nil hs
      rfl
    rw [hdrop]
    exact unsigned?_append hw h b
  · rename_i hsigned
    rw [if_neg hsigned] at h
    exact unsigned?_append hw h b

theorem length_lt_of_unsigned? {negated : Bool} {c : Char} (hc : isBlank c = false)
    (h : unsigned? negated (c :: s) = some (t, rest)) : rest.length < (c :: s).length := by
  by_cases hquote : ∃ u, (c :: s).dropWhile (fun c => !endsWord c) = '"' :: u
  · obtain ⟨u, hu⟩ := hquote
    have hle := List.length_dropWhile_le (fun c => !endsWord c) (c :: s)
    rw [unsigned?, hu] at h
    obtain ⟨⟨p, behind⟩, hclose, heq⟩ := Option.map_eq_some_iff.mp h
    cases heq
    rw [closeQuote?_eq_cutAt?] at hclose
    obtain ⟨-, rfl⟩ := Text.notMem_of_cutAt? hclose
    rw [hu] at hle
    simp only [List.length_cons, List.length_append] at hle ⊢
    omega
  · rw [not_exists] at hquote
    rw [unsigned?_of_no_quote hquote] at h
    cases h
    cases hends : endsWord c with
    | true =>
      rw [endsWord, hc, Bool.false_or, beq_iff_eq] at hends
      subst hends
      exact absurd (List.dropWhile_cons_of_neg (by decide)) (hquote s)
    | false =>
      have hle := List.length_dropWhile_le (fun c => !endsWord c) s
      rw [List.dropWhile_cons_of_pos (by rw [hends]; rfl), List.length_cons]
      omega

theorem length_lt_of_first? {c : Char} (hc : isBlank c = false)
    (h : first? (c :: s) = some (t, rest)) : rest.length < (c :: s).length := by
  rw [first?_eq] at h
  split at h
  · rename_i hsigned
    obtain ⟨d, u, heq, hd⟩ := exists_of_signed hsigned
    rw [heq] at h ⊢
    have hlt := length_lt_of_unsigned? hd h
    rw [List.length_cons]
    omega
  · exact length_lt_of_unsigned? hc h

/-- Every token takes a character, so a number of steps that is the length of the text is enough. -/
theorem scanFrom_eq_scanFrom {n m : Nat} (hn : s.length ≤ n) (hm : s.length ≤ m) :
    scanFrom n s = scanFrom m s := by
  induction n generalizing s m with
  | zero =>
    obtain rfl := List.length_eq_zero_iff.mp (Nat.le_zero.mp hn)
    cases m with
    | zero => rfl
    | succ m => rfl
  | succ n ih =>
    cases m with
    | zero =>
      obtain rfl := List.length_eq_zero_iff.mp (Nat.le_zero.mp hm)
      rfl
    | succ m =>
      rw [scanFrom, scanFrom]
      cases hs : s.dropWhile isBlank with
      | nil => rfl
      | cons c u =>
        have hle := List.length_dropWhile_le isBlank s
        rw [hs] at hle
        cases hfirst : first? (c :: u) with
        | none => simp only [hfirst]
        | some found =>
          obtain ⟨t, rest⟩ := found
          have hlt := length_lt_of_first? (Text.eq_false_of_dropWhile hs) hfirst
          have hrest : scanFrom n rest = scanFrom m rest := ih (by omega) (by omega)
          simp only [hfirst, hrest]

/-- The blanks in front of a text are passed over. -/
theorem scan_dropWhile (s : List Char) : scan (s.dropWhile isBlank) = scan s := by
  have hle := List.length_dropWhile_le isBlank s
  rw [scan, scan, scanFrom_eq_scanFrom (m := s.length + 1) (Nat.le_refl _) (by omega),
    scanFrom_eq_scanFrom (n := s.length) (m := s.length + 1) (Nat.le_refl _) (Nat.le_succ _),
    scanFrom, scanFrom, List.dropWhile_idempotent]

theorem scan_cons {c : Char} (hc : isBlank c = false) (s : List Char) : scan (c :: s) =
    match first? (c :: s) with
    | none => .error .unterminatedQuote
    | some (t, rest) => (scan rest).map (t :: ·) := by
  have hdrop : (c :: s).dropWhile isBlank = c :: s :=
    List.dropWhile_cons_of_neg (by rw [hc]; exact Bool.false_ne_true)
  rw [scan, List.length_cons, scanFrom, hdrop]
  cases hfirst : first? (c :: s) with
  | none => simp only [hfirst]
  | some found =>
    obtain ⟨t, rest⟩ := found
    have hlt := length_lt_of_first? hc hfirst
    rw [List.length_cons] at hlt
    simp only [hfirst]
    rw [scanFrom_eq_scanFrom (n := s.length) (by omega) (Nat.le_refl _), scan]

/-- Behind the tokens of a text and a blank, the next text is read as if it stood alone. -/
theorem scan_append (h : scan s = .ok ts) (hw : isBlank w = true) (b : List Char) :
    scan (s ++ w :: b) = (scan b).map (ts ++ ·) := by
  induction hlength : s.length using Nat.strong_induction_on generalizing s ts with
  | _ length ih =>
    rw [← scan_dropWhile s] at h
    rw [← scan_dropWhile (s ++ w :: b), List.dropWhile_append]
    cases hs : s.dropWhile isBlank with
    | nil =>
      rw [hs] at h
      cases h
      rw [List.isEmpty_nil, if_pos rfl, List.dropWhile_cons_of_pos hw, scan_dropWhile]
      cases scan b with
      | error e => rfl
      | ok us => rfl
    | cons c u =>
      have hc := Text.eq_false_of_dropWhile hs
      have hle := List.length_dropWhile_le isBlank s
      rw [hs] at h hle
      rw [scan_cons hc] at h
      rw [List.isEmpty_cons, if_neg Bool.false_ne_true, List.cons_append, scan_cons hc,
        ← List.cons_append]
      cases hfirst : first? (c :: u) with
      | none =>
        simp only [hfirst] at h
        cases h
      | some found =>
        obtain ⟨t, rest⟩ := found
        have hlt := length_lt_of_first? hc hfirst
        simp only [hfirst] at h
        cases hrest : scan rest with
        | error e =>
          rw [hrest] at h
          cases h
        | ok us =>
          rw [hrest] at h
          cases h
          have hbehind := ih rest.length (by omega) hrest rfl
          simp only [first?_append (List.cons_ne_nil c u) hw hfirst, hbehind]
          cases scan b with
          | error e => rfl
          | ok vs => rfl

end Token

variable {ts us : List Token} {cs : List Clause} {pending : Bool}

/-- Clauses that are complete leave nothing pending for the tokens behind them. -/
theorem clausesOf_append (h : clausesOf pending ts = .ok cs) (us : List Token) :
    clausesOf pending (ts ++ us) = (clausesOf false us).map (cs ++ ·) := by
  induction ts generalizing pending cs with
  | nil =>
    cases pending with
    | true => cases h
    | false =>
      cases h
      cases hus : clausesOf false us with
      | error e => rw [List.nil_append, hus]; rfl
      | ok ds => rw [List.nil_append, hus]; rfl
  | cons t ts ih =>
    rw [clausesOf] at h
    rw [List.cons_append, clausesOf]
    split at h
    · rename_i hnot
      rw [if_pos hnot, ih h]
    · rename_i hnot
      rw [if_neg hnot]
      split at h
      · rename_i hand
        rw [if_pos hand, ih h]
      · rename_i hand
        rw [if_neg hand]
        split at h
        · cases h
        · rename_i hor
          obtain ⟨c, hclause, h⟩ := exists_ok_of_bind h
          obtain ⟨ds, hds, h⟩ := exists_ok_of_bind h
          cases h
          rw [if_neg hor, hclause, ih hds]
          cases clausesOf false us with
          | error e => rfl
          | ok es => rfl

/-- The clauses of a text that is joined to another stand in front of those of the other. -/
theorem parse_append {a : String} {q : Query} (ha : parse a = .ok q) {w : Char}
    (hw : isBlank w = true) (b : String) :
    parse (a ++ String.singleton w ++ b) = (parse b).map fun p => ⟨q.clauses ++ p.clauses⟩ := by
  obtain ⟨ts, hts, ha⟩ := exists_ok_of_bind ha
  obtain ⟨cs, hcs, ha⟩ := exists_ok_of_bind ha
  cases ha
  have htext : (a ++ String.singleton w ++ b).toList = a.toList ++ w :: b.toList := by
    rw [String.toList_append, String.toList_append, String.toList_singleton, List.append_assoc,
      List.singleton_append]
  rw [parse, parse, htext, Token.scan_append hts hw]
  cases Token.scan b.toList with
  | error e => rfl
  | ok us =>
    change (do return ⟨← clausesOf false (ts ++ us)⟩ : Except Fault Query) =
      (do return ⟨← clausesOf false us⟩ : Except Fault Query).map _
    rw [clausesOf_append hcs]
    cases clausesOf false us with
    | error e => rfl
    | ok ds => rfl

end ResourceIndex.Query
