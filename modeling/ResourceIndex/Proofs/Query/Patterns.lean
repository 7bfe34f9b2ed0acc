import ResourceIndex.Proofs.Query.Pieces
/-
Patterns as regular expressions. The expression of a pattern is read back as the pieces of the
pattern. It covers the values that the pattern stands for, and that of a text between two stars the
values that hold the text, as long as no line feed is among the characters of the value.
-/
namespace ResourceIndex.Query

variable {p s v : List Char}

/-- A star passes over any part of the value, and what follows it takes the rest. -/
theorem star_iff {fits rest : List Char → Bool} (hnil : fits [] = rest [])
    (hcons : ∀ x v, fits (x :: v) = (rest (x :: v) || fits v)) :
    fits v = true ↔ ∃ u w, v = u ++ w ∧ rest w = true := by
  induction v with
  | nil =>
    rw [hnil]
    constructor
    · exact fun h => ⟨[], [], rfl, h⟩
    · rintro ⟨u, w, h, hw⟩
      rwa [(List.append_eq_nil_iff.mp h.symm).2] at hw
  | cons x v ih =>
    rw [hcons, Bool.or_eq_true, ih]
    constructor
    · rintro (h | ⟨u, w, rfl, hw⟩)
      · exact ⟨[], x :: v, rfl, h⟩
      · exact ⟨x :: u, w, rfl, hw⟩
    · rintro ⟨u, w, h, hw⟩
      cases u with
      | nil =>
        rw [List.nil_append] at h
        exact .inl (h ▸ hw)
      | cons y u =>
        obtain ⟨-, rfl⟩ := List.cons.inj h
        exact .inr ⟨u, w, rfl, hw⟩

theorem globFits_star_iff :
    globFits ('*' :: p) v = true ↔ ∃ u w, v = u ++ w ∧ globFits p w = true := by
  apply star_iff
  · rw [globFits, beq_self_eq_true, Bool.true_and]
  · intro x v
    rw [globFits, if_pos rfl]

theorem globFits_cons_iff {c : Char} (hc : c ≠ '*') :
    globFits (c :: p) v = true ↔
      ∃ x w, v = x :: w ∧ (c = '?' ∨ c = x) ∧ globFits p w = true := by
  cases v with
  | nil =>
    rw [globFits, beq_false_of_ne hc, Bool.false_and]
    refine iff_of_false Bool.false_ne_true ?_
    rintro ⟨x, w, h, -⟩
    cases h
  | cons x w =>
    rw [globFits, if_neg hc]
    simp only [Bool.and_eq_true, Bool.or_eq_true, beq_iff_eq, List.cons.injEq, and_assoc,
      exists_and_left, exists_eq_left']

/-- A character that is no wildcard is in the value as often as in the pattern, or more often. -/
theorem count_le_of_globFits {c : Char} (hstar : c ≠ '*') (hone : c ≠ '?')
    (h : globFits p v = true) : p.count c ≤ v.count c := by
  induction p generalizing v with
  | nil => exact Nat.zero_le _
  | cons d p ih =>
    by_cases hd : d = '*'
    · subst hd
      obtain ⟨u, w, rfl, hw⟩ := globFits_star_iff.mp h
      rw [List.count_cons_of_ne (Ne.symm hstar), List.count_append]
      exact Nat.le_add_left_of_le (ih hw)
    · obtain ⟨x, w, rfl, hdx, hw⟩ := (globFits_cons_iff hd).mp h
      have hle := ih hw
      rcases hdx with rfl | rfl
      · rw [List.count_cons_of_ne (Ne.symm hone)]
        exact Nat.le_trans hle List.count_le_count_cons
      · rw [List.count_cons, List.count_cons]
        exact Nat.add_le_add_right hle _

/-- The piece of a regular expression for a character of a pattern. -/
def pieceOf (c : Char) : Piece := if c = '*' then .run else if c = '?' then .any else .char c

theorem eq_of_pieceOf_eq_char {c d : Char} (h : pieceOf c = .char d) : c = d := by
  rw [pieceOf] at h
  split at h
  · cases h
  · split at h
    · cases h
    · exact Piece.char.inj h

theorem spells_star_cons_iff {ps : List Piece} :
    Spells (pieceOf '*' :: ps) v ↔ ∃ u w, v = u ++ w ∧ Spells ps w := Iff.rfl

theorem spells_pieceOf_cons_iff {c : Char} {ps : List Piece} (hc : c ≠ '*') :
    Spells (pieceOf c :: ps) v ↔ ∃ x w, v = x :: w ∧ (c = '?' ∨ c = x) ∧ Spells ps w := by
  rw [pieceOf, if_neg hc]
  split
  · rename_i hone
    simp only [hone, true_or, true_and, Spells]
  · rename_i hone
    simp only [hone, false_or, Spells]
    constructor
    · rintro ⟨w, rfl, hw⟩
      exact ⟨c, w, rfl, rfl, hw⟩
    · rintro ⟨-, w, rfl, rfl, hw⟩
      exact ⟨w, rfl, hw⟩

theorem globFits_iff_spells : globFits p v = true ↔ Spells (p.map pieceOf) v := by
  induction p generalizing v with
  | nil => rw [globFits, List.isEmpty_iff, List.map_nil, Spells]
  | cons c p ih =>
    rw [List.map_cons]
    by_cases hstar : c = '*'
    · subst hstar
      simp only [globFits_star_iff, spells_star_cons_iff, ih]
    · simp only [globFits_cons_iff hstar, spells_pieceOf_cons_iff hstar, ih]

theorem globRegex_cons (c : Char) (p : List Char) :
    globRegex (c :: p) = (if c = '*' then ['.', '*'] else if c = '?' then ['.'] else
      escapeRegex [c]) ++ globRegex p := List.flatMap_cons

/-- No expression of a pattern begins with a star that a dot in front of it could take. -/
theorem globRegex_ne_star_cons (p u : List Char) : globRegex p ≠ '*' :: u := by
  cases p with
  | nil => exact fun h => nomatch h
  | cons c p =>
    rw [globRegex_cons]
    split
    · exact fun h => absurd (List.cons.inj h).1 (by decide)
    · rename_i hstar
      split
      · exact fun h => absurd (List.cons.inj h).1 (by decide)
      · rw [escapeRegex_cons]
        split
        · exact fun h => absurd (List.cons.inj h).1 (by decide)
        · exact fun h => hstar (List.cons.inj h).1

namespace Regex

theorem read?_dot_cons {e : List Char} (he : ∀ u, e ≠ '*' :: u) :
    read? ('.' :: e) = (read? e).map (Piece.any :: ·) := by
  rw [read?]
  exact he

theorem read?_globRegex (p : List Char) : read? (globRegex p) = some (p.map pieceOf) := by
  induction p with
  | nil => rfl
  | cons c p ih =>
    rw [globRegex_cons, List.map_cons, pieceOf]
    split
    · rw [List.cons_append, List.singleton_append, read?, ih]
      rfl
    · split
      · rw [List.singleton_append, read?_dot_cons (globRegex_ne_star_cons p), ih]
        rfl
      · have hescape : escapeRegex [c] = if isRegexSpecial c then ['\\', c] else [c] := by
          rw [escapeRegex_cons, show escapeRegex [] = [] from rfl, List.append_nil]
        rw [hescape, read?_escape_append, ih]
        rfl

/-- The expression of a pattern covers what the pattern stands for, unless a line feed is in it. -/
theorem covers_globRegex_iff (hp : '\n' ∉ p) :
    covers (globRegex p) v = true ↔ '\n' ∉ v ∧ globFits p v = true := by
  have hpieces : Piece.char '\n' ∉ p.map pieceOf := by
    intro h
    obtain ⟨c, hc, hpiece⟩ := List.mem_map.mp h
    exact hp (eq_of_pieceOf_eq_char hpiece ▸ hc)
  rw [covers, read?_globRegex, globFits_iff_spells]
  exact fits_iff_notMem_and_spells hpieces

theorem covers_escapeRegex_between_iff (hs : '\n' ∉ s) :
    covers (['.', '*'] ++ escapeRegex s ++ ['.', '*']) v = true ↔ '\n' ∉ v ∧ s <:+: v := by
  rw [covers, read?_escapeRegex_between, ← spells_holding_iff]
  exact fits_iff_notMem_and_spells (mt char_mem_holding_iff.mp hs)

end Regex

/-- The expression of a pattern has one piece for each character, of which all but stars and question
marks stand for themselves, and it covers what these pieces spell. -/
theorem globRegex_means_pattern (hline : '\n' ∉ v) :
    Regex.read? (globRegex p) = some (p.map pieceOf) ∧
      (Regex.covers (globRegex p) v = true ↔ Spells (p.map pieceOf) v) ∧
      (globFits p v = true ↔ Spells (p.map pieceOf) v) := by
  refine ⟨Regex.read?_globRegex p, ?_, globFits_iff_spells⟩
  rw [Regex.covers, Regex.read?_globRegex]
  exact Regex.fits_iff_spells hline

/-- Brackets and a backslash before a star are no operators. -/
theorem globRegex_means_pattern_of_operators :
    let p := ['[', '\\', '*', '.', '?', ')']
    let v := ['[', '\\', 'x', 'y', '.', '+', ')']
    '\n' ∉ v ∧ Regex.read? (globRegex p) =
        some [.char '[', .char '\\', .run, .char '.', .any, .char ')'] ∧
      Regex.covers (globRegex p) v = true ∧ Spells (p.map pieceOf) v := by
  intro p v
  have hline : '\n' ∉ v := by decide
  have hcovers : Regex.covers (globRegex p) v = true := by decide +kernel
  obtain ⟨hread, hspells, -⟩ := globRegex_means_pattern (p := p) hline
  exact ⟨hline, hread, hcovers, hspells.mp hcovers⟩

end ResourceIndex.Query
