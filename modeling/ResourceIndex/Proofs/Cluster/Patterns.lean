import Mathlib.Data.List.Basic
import ResourceIndex.Cluster.Meaning
import ResourceIndex.Proofs.Query.Patterns
import ResourceIndex.Proofs.Text.Lowercase
/-
Patterns of the cluster. Each stands for what its pieces spell; a text with its marks escaped has
its characters for pieces, in lower case as before. A pattern means the same as in the query language
as long as no backslash in it stands before another character; when one does, there is a text that
only the cluster finds.
-/
namespace ResourceIndex.Cluster

open Query (Piece Spells globFits holding pieceOf)
open Text (IsSign isCased isCaseIgnorable lowerAfter lowerChar lowerChars meetsCased)

variable {c : Char} {p s v : List Char}

theorem wildcardFits_escaped_cons_iff :
    wildcardFits ('\\' :: c :: p) v = true ↔ ∃ w, v = c :: w ∧ wildcardFits p w = true := by
  cases v with
  | nil =>
    rw [wildcardFits]
    refine iff_of_false Bool.false_ne_true ?_
    rintro ⟨w, h, -⟩
    cases h
  | cons x w =>
    rw [wildcardFits, Bool.and_eq_true, beq_iff_eq]
    constructor
    · rintro ⟨rfl, h⟩
      exact ⟨w, rfl, h⟩
    · rintro ⟨_, h, hw⟩
      obtain ⟨rfl, rfl⟩ := List.cons.inj h
      exact ⟨rfl, hw⟩

theorem wildcardFits_star_iff :
    wildcardFits ('*' :: p) v = true ↔ ∃ u w, v = u ++ w ∧ wildcardFits p w = true := by
  have hstar : ∀ d q, '*' = '\\' → p = d :: q → False := fun _ _ h => absurd h (by decide)
  apply Query.star_iff
  · rw [wildcardFits, beq_self_eq_true, Bool.true_and]
    exact hstar
  · intro x v
    rw [wildcardFits, if_pos rfl]
    exact hstar

/-- Characters that stand for one: all but a star, and a backslash only at the end. -/
theorem wildcardFits_cons_iff (hc : c ≠ '*') (hp : c = '\\' → p = []) :
    wildcardFits (c :: p) v = true ↔
      ∃ x w, v = x :: w ∧ (c = '?' ∨ c = x) ∧ wildcardFits p w = true := by
  have hescape : ∀ d q, c = '\\' → p = d :: q → False := by
    intro d q h heq
    rw [hp h] at heq
    cases heq
  cases v with
  | nil =>
    rw [wildcardFits, beq_false_of_ne hc, Bool.false_and]
    · refine iff_of_false Bool.false_ne_true ?_
      rintro ⟨x, w, h, -⟩
      cases h
    · exact hescape
  | cons x w =>
    rw [wildcardFits, if_neg hc]
    · simp only [Bool.and_eq_true, Bool.or_eq_true, beq_iff_eq, List.cons.injEq, and_assoc,
        exists_and_left, exists_eq_left']
    · exact hescape

section Pieces

/-- The pieces of a pattern, in which a backslash takes the meaning from the character after it. -/
def piecesOf : List Char → List Piece
  | [] => []
  | '\\' :: c :: p => .char c :: piecesOf p
  | c :: p => pieceOf c :: piecesOf p

theorem piecesOf_cons (hp : c = '\\' → p = []) : piecesOf (c :: p) = pieceOf c :: piecesOf p := by
  rw [piecesOf]
  intro d q hc heq
  rw [hp hc] at heq
  cases heq

theorem wildcardFits_iff_spells : wildcardFits p v = true ↔ Spells (piecesOf p) v := by
  induction p using piecesOf.induct generalizing v with
  | case1 => rw [wildcardFits, List.isEmpty_iff, piecesOf, Spells]
  | case2 c p ih => simp only [wildcardFits_escaped_cons_iff, piecesOf, Spells, ih]
  | case3 c p hescape ih =>
    have hlast : c = '\\' → p = [] := by
      intro hc
      cases p with
      | nil => rfl
      | cons d p => exact (hescape d p hc rfl).elim
    rw [piecesOf_cons hlast]
    by_cases hstar : c = '*'
    · subst hstar
      simp only [wildcardFits_star_iff, Query.spells_star_cons_iff, ih]
    · simp only [wildcardFits_cons_iff hstar hlast, Query.spells_pieceOf_cons_iff hstar, ih]

theorem piecesOf_eq_map (hp : '\\' ∉ p.dropLast) : piecesOf p = p.map pieceOf := by
  induction p with
  | nil => rfl
  | cons c p ih =>
    rw [Text.mem_dropLast_cons_iff, not_and, not_or] at hp
    have hlast : c = '\\' → p = [] := by
      rintro rfl
      by_contra hne
      exact (hp hne).1 rfl
    have hrest : '\\' ∉ p.dropLast := by
      intro h
      exact (hp (List.ne_nil_of_mem (List.dropLast_subset _ h))).2 h
    rw [piecesOf_cons hlast, ih hrest, List.map_cons]

/-- Without a backslash before another character a pattern means the same in both languages. -/
theorem wildcardFits_iff_globFits (hp : '\\' ∉ p.dropLast) :
    wildcardFits p v = true ↔ globFits p v = true := by
  rw [wildcardFits_iff_spells, Query.globFits_iff_spells, piecesOf_eq_map hp]

end Pieces

/-- The characters that are escaped in a pattern. -/
def IsMark (c : Char) : Prop := c = '*' ∨ c = '?' ∨ c = '\\'

instance (c : Char) : Decidable (IsMark c) :=
  inferInstanceAs (Decidable (c = '*' ∨ c = '?' ∨ c = '\\'))

theorem IsMark.isSign (h : IsMark c) : IsSign c := by
  rcases h with rfl | rfl | rfl
  · decide
  · decide
  · decide

section Separation

/-- What a pattern of the cluster stands for if its stars stand for nothing. -/
def literal : List Char → List Char
  | [] => []
  | '\\' :: c :: p => c :: literal p
  | c :: p => if c = '*' then literal p else c :: literal p

theorem wildcardFits_literal (p : List Char) : wildcardFits p (literal p) = true := by
  induction p using literal.induct with
  | case1 => rw [literal, wildcardFits]; rfl
  | case2 c p ih =>
    rw [literal, wildcardFits_escaped_cons_iff]
    exact ⟨literal p, rfl, ih⟩
  | case3 p hescape ih =>
    rw [literal, if_pos rfl, wildcardFits_star_iff]
    · exact ⟨[], literal p, rfl, ih⟩
    · exact hescape
  | case4 c p hescape hstar ih =>
    rw [literal, if_neg hstar]
    · refine (wildcardFits_cons_iff hstar ?_).mpr ⟨c, literal p, rfl, .inr rfl, ih⟩
      intro hc
      cases p with
      | nil => rfl
      | cons d p => exact (hescape d p hc rfl).elim
    · exact hescape

theorem mem_of_mem_literal {x : Char} (h : x ∈ literal p) : x ∈ p := by
  induction p using literal.induct with
  | case1 => exact h
  | case2 c p ih =>
    rw [literal, List.mem_cons] at h
    rcases h with rfl | h
    · exact List.mem_cons_of_mem _ List.mem_cons_self
    · exact List.mem_cons_of_mem _ (List.mem_cons_of_mem _ (ih h))
  | case3 p hescape ih =>
    rw [literal, if_pos rfl] at h
    · exact List.mem_cons_of_mem _ (ih h)
    · exact hescape
  | case4 c p hescape hstar ih =>
    rw [literal, if_neg hstar, List.mem_cons] at h
    · rcases h with rfl | h
      · exact List.mem_cons_self
      · exact List.mem_cons_of_mem _ (ih h)
    · exact hescape

theorem count_literal_le (p : List Char) : (literal p).count '\\' ≤ p.count '\\' := by
  induction p using literal.induct with
  | case1 => exact Nat.le_refl _
  | case2 c p ih =>
    rw [literal, List.count_cons, List.count_cons, List.count_cons]
    omega
  | case3 p hescape ih =>
    rw [literal, if_pos rfl]
    · exact Nat.le_trans ih List.count_le_count_cons
    · exact hescape
  | case4 c p hescape hstar ih =>
    rw [literal, if_neg hstar, List.count_cons, List.count_cons]
    · exact Nat.add_le_add_right ih _
    · exact hescape

/-- The backslash that makes another character stand for itself is not in the text. -/
theorem count_literal_lt (h : '\\' ∈ p.dropLast) : (literal p).count '\\' < p.count '\\' := by
  induction p using literal.induct with
  | case1 => exact absurd h List.not_mem_nil
  | case2 c p ih =>
    have hle := count_literal_le p
    rw [literal, List.count_cons_self, List.count_cons, List.count_cons]
    omega
  | case3 p hescape ih =>
    obtain ⟨-, heq | hp⟩ := Text.mem_dropLast_cons_iff.mp h
    · exact absurd heq (by decide)
    · rw [literal, if_pos rfl]
      · exact Nat.lt_of_lt_of_le (ih hp) List.count_le_count_cons
      · exact hescape
  | case4 c p hescape hstar ih =>
    obtain ⟨hne, heq | hp⟩ := Text.mem_dropLast_cons_iff.mp h
    · obtain ⟨d, q, rfl⟩ := List.exists_cons_of_ne_nil hne
      exact (hescape d q heq.symm rfl).elim
    · rw [literal, if_neg hstar, List.count_cons, List.count_cons]
      · exact Nat.add_lt_add_right (ih hp) _
      · exact hescape

theorem globFits_literal_eq_false (h : '\\' ∈ p.dropLast) : globFits p (literal p) = false := by
  rw [← Bool.not_eq_true]
  intro hfits
  exact Nat.not_le_of_lt (count_literal_lt h)
    (Query.count_le_of_globFits (by decide) (by decide) hfits)

theorem literal_append (hstar : '*' ∉ s) (hslash : '\\' ∉ s) :
    literal (s ++ p) = s ++ literal p := by
  induction s with
  | nil => rfl
  | cons c s ih =>
    rw [List.mem_cons, not_or] at hstar hslash
    rw [List.cons_append, literal, if_neg (Ne.symm hstar.1), ih hstar.2 hslash.2,
      List.cons_append]
    exact fun _ _ h => absurd h.symm hslash.1

/-- Lower case leaves the marks of a pattern as they are. -/
theorem literal_lowerChars (p : List Char) : literal (lowerChars p) = lowerChars (literal p) := by
  have hslash : lowerChar '\\' = ['\\'] := Text.lowerChar_of_isSign (by decide)
  induction p using literal.induct with
  | case1 => rfl
  | case2 c p ih =>
    obtain ⟨d, l, hlower⟩ := List.exists_cons_of_ne_nil (Text.lowerChar_ne_nil c)
    -- A sign is lowered to itself alone, so none is behind the character that is escaped.
    have hbehind : ∀ x, IsSign x → x ∉ l := by
      intro x hx hmem
      obtain rfl := Text.eq_of_mem_lowerChar hx (hlower ▸ List.mem_cons_of_mem d hmem)
      rw [Text.lowerChar_of_isSign hx] at hlower
      rw [← (List.cons.inj hlower).2] at hmem
      exact List.not_mem_nil hmem
    rw [Text.lowerChars_cons, Text.lowerChars_cons, hslash, hlower, List.singleton_append,
      List.cons_append, literal, literal_append (hbehind _ (by decide)) (hbehind _ (by decide)), ih,
      literal, Text.lowerChars_cons, hlower, List.cons_append]
  | case3 p hescape ih =>
    rw [Text.lowerChars_cons, Text.lowerChar_of_isSign (by decide), List.singleton_append, literal,
      if_pos rfl, ih, literal, if_pos rfl]
    · exact hescape
    · exact fun _ _ h => absurd h (by decide)
  | case4 c p hescape hstar ih =>
    rw [Text.lowerChars_cons, literal, if_neg hstar, Text.lowerChars_cons]
    · by_cases hc : c = '\\'
      · subst hc
        cases p with
        | nil => rfl
        | cons d p => exact (hescape d p rfl rfl).elim
      · rw [literal_append, ih]
        · exact fun h => hstar (Text.eq_of_mem_lowerChar (by decide) h)
        · exact fun h => hc (Text.eq_of_mem_lowerChar (by decide) h)
    · exact hescape

/-- Some text is found by the cluster only, in lower case and without any sign of its own. -/
theorem exists_wildcardFits_only (h : '\\' ∈ s.dropLast) :
    ∃ t, (∀ x, IsSign x → x ∈ t → x ∈ s) ∧
      wildcardFits (Text.lower s) (lowerChars t) = true ∧
      globFits (Text.lower s) (lowerChars t) = false := by
  have hlower : Text.lower s = lowerChars (Text.settleSigmas [] s) := Text.lowerAfter_eq [] s
  refine ⟨literal (Text.settleSigmas [] s), ?_, ?_, ?_⟩
  · intro x hx hmem
    exact (Text.mem_settleSigmas_iff hx [] s).mp (mem_of_mem_literal hmem)
  · rw [← literal_lowerChars, ← hlower]
    exact wildcardFits_literal _
  · rw [← literal_lowerChars, ← hlower]
    exact globFits_literal_eq_false ((Text.mem_dropLast_lower_iff (by decide)).mpr h)

end Separation

section Escaping

theorem escapePattern_cons (c : Char) (s : List Char) : Dsl.escapePattern (c :: s) =
    (if IsMark c then ['\\', c] else [c]) ++ Dsl.escapePattern s := List.flatMap_cons

theorem escapePattern_append (s t : List Char) :
    Dsl.escapePattern (s ++ t) = Dsl.escapePattern s ++ Dsl.escapePattern t := List.flatMap_append

theorem escapePattern_of_forall (h : ∀ c ∈ s, ¬ IsMark c) : Dsl.escapePattern s = s := by
  induction s with
  | nil => rfl
  | cons c s ih =>
    obtain ⟨hc, hs⟩ := List.forall_mem_cons.mp h
    rw [escapePattern_cons, if_neg hc, ih hs, List.singleton_append]

theorem piecesOf_escapePattern_append (s p : List Char) :
    piecesOf (Dsl.escapePattern s ++ p) = s.map Piece.char ++ piecesOf p := by
  induction s with
  | nil => rfl
  | cons c s ih =>
    rw [escapePattern_cons]
    split
    · rw [List.append_assoc, List.cons_append, List.singleton_append, piecesOf, ih]
      rfl
    · rename_i hc
      have hstar : c ≠ '*' := fun h => hc (.inl h)
      have hone : c ≠ '?' := fun h => hc (.inr (.inl h))
      have hslash : c ≠ '\\' := fun h => hc (.inr (.inr h))
      rw [List.append_assoc, List.singleton_append, piecesOf_cons fun h => absurd h hslash, pieceOf,
        if_neg hstar, if_neg hone, ih]
      rfl

/-- Between two stars no character of an escaped text is taken for a wildcard or an escape. -/
theorem piecesOf_escapePattern_between (s : List Char) :
    piecesOf ('*' :: Dsl.escapePattern s ++ ['*']) = holding s := by
  have hstar : ∀ q, '*' = '\\' → q = ([] : List Char) := fun _ h => absurd h (by decide)
  rw [List.cons_append, piecesOf_cons (hstar _), piecesOf_escapePattern_append]
  rfl

/-- A literal text between two stars is found in the values that hold it. -/
theorem wildcardFits_escapePattern_between_iff :
    wildcardFits ('*' :: Dsl.escapePattern s ++ ['*']) v = true ↔ s <:+: v := by
  rw [wildcardFits_iff_spells, piecesOf_escapePattern_between, Query.spells_holding_iff]

theorem meetsCased_cons (c : Char) (s : List Char) :
    meetsCased (c :: s) = if isCaseIgnorable c then meetsCased s else isCased c := by
  split
  · rename_i hc
    rw [meetsCased, List.dropWhile_cons_of_pos hc]
    rfl
  · rename_i hc
    rw [meetsCased, List.dropWhile_cons_of_neg hc]

/-- No mark is passed over when the letters around a sigma are sought, nor is one a letter. -/
theorem meetsCased_of_isMark (h : IsMark c) (s : List Char) : meetsCased (c :: s) = false := by
  rw [meetsCased_cons]
  rcases h with rfl | rfl | rfl
  · rfl
  · rfl
  · rfl

theorem meetsCased_escapePattern (s : List Char) :
    meetsCased (Dsl.escapePattern s ++ ['*']) = meetsCased s := by
  induction s with
  | nil => rfl
  | cons c s ih =>
    rw [escapePattern_cons]
    split
    · rename_i hc
      rw [meetsCased_of_isMark hc]
      exact meetsCased_of_isMark (.inr (.inr rfl)) _
    · rw [List.append_assoc, List.singleton_append, meetsCased_cons, meetsCased_cons, ih]

theorem lowerAfter_escapePattern {before before' : List Char}
    (hbefore : meetsCased before' = meetsCased before) :
    lowerAfter before' (Dsl.escapePattern s ++ ['*']) =
      Dsl.escapePattern (lowerAfter before s) ++ ['*'] := by
  induction s generalizing before before' with
  | nil => rfl
  | cons c s ih =>
    have hbehind : meetsCased (c :: before') = meetsCased (c :: before) := by
      rw [meetsCased_cons, meetsCased_cons, hbefore]
    rw [Text.lowerAfter_cons before, escapePattern_append, List.append_assoc]
    by_cases hc : IsMark c
    · have hform : ∀ b t, lowerChar (Text.sigmaForm b c t) = [c] := by
        intro b t
        rw [(Text.sigmaForm_eq_iff hc.isSign b t).mpr rfl, Text.lowerChar_of_isSign hc.isSign]
      have hslash : meetsCased (c :: '\\' :: before') = meetsCased (c :: before) := by
        rw [meetsCased_of_isMark hc, meetsCased_of_isMark hc]
      rw [escapePattern_cons, if_pos hc, hform, escapePattern_cons, if_pos hc, ← ih hslash]
      simp only [List.cons_append, List.nil_append, Text.lowerAfter_cons, hform]
      rfl
    · have hlowered : ∀ x ∈ lowerChar (Text.sigmaForm before c s), ¬ IsMark x := by
        intro x hx hmark
        have hform := Text.eq_of_mem_lowerChar hmark.isSign hx
        exact hc ((Text.sigmaForm_eq_iff hmark.isSign before s).mp hform ▸ hmark)
      rw [escapePattern_cons, if_neg hc, List.singleton_append, List.cons_append,
        Text.lowerAfter_cons, escapePattern_of_forall hlowered, ← ih hbehind, Text.sigmaForm,
        Text.sigmaForm, hbefore, meetsCased_escapePattern]

theorem lower_escapePattern_between (s : List Char) :
    Text.lower ('*' :: Dsl.escapePattern s ++ ['*']) =
      '*' :: Dsl.escapePattern (Text.lower s) ++ ['*'] := by
  have hstar : meetsCased ['*'] = meetsCased [] := rfl
  rw [List.cons_append, Text.lower, Text.lowerAfter_cons, lowerAfter_escapePattern hstar]
  rfl

end Escaping

end ResourceIndex.Cluster
