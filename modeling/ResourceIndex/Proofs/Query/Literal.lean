import ResourceIndex.Query.Regex
/- Regular expressions that are made from literal texts. Whatever the text, its escaped form is
read back as its characters, so it stands for the text and nothing else. -/
namespace ResourceIndex.Query

theorem escapeRegex_cons (c : Char) (s : List Char) :
    escapeRegex (c :: s) = (if isRegexSpecial c then ['\\', c] else [c]) ++ escapeRegex s := rfl

namespace Regex

theorem read?_escape_append (c : Char) (e : List Char) :
    read? ((if isRegexSpecial c then ['\\', c] else [c]) ++ e) =
      (read? e).map (Piece.char c :: ·) := by
  split
  · rename_i hc
    simp only [List.cons_append, List.nil_append, read?, if_pos hc]
  · rename_i hc
    have hdot : c ≠ '.' := by
      rintro rfl
      exact hc (by decide)
    have hslash : c ≠ '\\' := by
      rintro rfl
      exact hc (by decide)
    rw [List.singleton_append, read?]
    · rw [if_neg (by simp only [hc, Bool.false_and, Bool.false_eq_true, not_false_eq_true])]
    · exact fun _ h => absurd h hdot
    · exact hdot
    · exact fun _ _ h => absurd h hslash

/-- No character of an escaped text is taken for an operator, and none swallows what follows. -/
theorem read?_escapeRegex_append (s e : List Char) :
    read? (escapeRegex s ++ e) = (read? e).map (s.map Piece.char ++ ·) := by
  induction s with
  | nil =>
    change read? e = (read? e).map fun ps => ps
    rw [Option.map_id']
  | cons c s ih =>
    rw [escapeRegex_cons, List.append_assoc, read?_escape_append, ih, Option.map_map]
    rfl

theorem fits_map_char_append (s : List Char) (ps : List Piece) (t : List Char) :
    fits (s.map Piece.char ++ ps) t = true ↔ ∃ u, t = s ++ u ∧ fits ps u = true := by
  induction s generalizing t with
  | nil => simp only [List.map_nil, List.nil_append, exists_eq_left']
  | cons c s ih =>
    cases t with
    | nil =>
      rw [List.map_cons, List.cons_append, fits]
      constructor
      · exact fun h => nomatch h
      · rintro ⟨u, h, -⟩
        cases h
    | cons x t =>
      rw [List.map_cons, List.cons_append, fits]
      simp only [Bool.and_eq_true, beq_iff_eq, ih, List.cons_append, List.cons.injEq, and_assoc,
        exists_and_left]

theorem afterRun_iff (rest : List Char → Bool) (s : List Char) :
    afterRun rest s = true ↔ ∃ u v, s = u ++ v ∧ '\n' ∉ u ∧ rest v = true := by
  induction s with
  | nil =>
    rw [afterRun]
    constructor
    · exact fun h => ⟨[], [], rfl, List.not_mem_nil, h⟩
    · rintro ⟨u, v, h, -, hv⟩
      rwa [(List.append_eq_nil_iff.mp h.symm).2] at hv
  | cons c s ih =>
    simp only [afterRun, Bool.or_eq_true, Bool.and_eq_true, bne_iff_ne, ne_eq, ih]
    constructor
    · rintro (h | ⟨hc, u, v, rfl, hu, hv⟩)
      · exact ⟨[], c :: s, rfl, List.not_mem_nil, h⟩
      · refine ⟨c :: u, v, rfl, ?_, hv⟩
        rw [List.mem_cons, not_or]
        exact ⟨Ne.symm hc, hu⟩
    · rintro ⟨u, v, h, hu, hv⟩
      cases u with
      | nil =>
        rw [List.nil_append] at h
        exact .inl (h ▸ hv)
      | cons x u =>
        obtain ⟨rfl, rfl⟩ := List.cons.inj h
        rw [List.mem_cons, not_or] at hu
        obtain ⟨hc, hu⟩ := hu
        exact .inr ⟨Ne.symm hc, u, v, rfl, hu, hv⟩

/-- A dot with a star runs over all but line feeds. -/
theorem fits_run_iff (s : List Char) : fits [.run] s = true ↔ '\n' ∉ s := by
  rw [fits, afterRun_iff]
  constructor
  · rintro ⟨u, v, rfl, hu, hv⟩
    rw [fits, List.isEmpty_iff] at hv
    rwa [hv, List.append_nil]
  · exact fun h => ⟨s, [], (List.append_nil s).symm, h, rfl⟩

theorem covers_escapeRegex_append {e : List Char} {ps : List Piece} (h : read? e = some ps)
    (s t : List Char) :
    covers (escapeRegex s ++ e) t = true ↔ ∃ u, t = s ++ u ∧ fits ps u = true := by
  rw [covers, read?_escapeRegex_append, h]
  exact fits_map_char_append s ps t

end Regex

end ResourceIndex.Query
