import ResourceIndex.Proofs.Query.Literal
/-
What is spelled by pieces, whatever language they are read from: a text that falls into parts, one
for each piece. A text is held by just those that a run, its characters and another run spell. Where
no line feed is in the way, a regular expression covers what its pieces spell.
-/
namespace ResourceIndex.Query

variable {s v : List Char} {ps : List Piece}

/-- A run stands for any text, a piece for any character for one, and every other for its own. -/
def Spells : List Piece → List Char → Prop
  | [], v => v = []
  | .run :: ps, v => ∃ u w, v = u ++ w ∧ Spells ps w
  | .any :: ps, v => ∃ x w, v = x :: w ∧ Spells ps w
  | .char c :: ps, v => ∃ w, v = c :: w ∧ Spells ps w

theorem spells_map_char_append_iff :
    Spells (s.map Piece.char ++ ps) v ↔ ∃ w, v = s ++ w ∧ Spells ps w := by
  induction s generalizing v with
  | nil => simp only [List.map_nil, List.nil_append, exists_eq_left']
  | cons c s ih =>
    simp only [List.map_cons, List.cons_append, Spells, ih]
    constructor
    · rintro ⟨-, rfl, w, rfl, hw⟩
      exact ⟨w, rfl, hw⟩
    · rintro ⟨w, rfl, hw⟩
      exact ⟨s ++ w, rfl, w, rfl, hw⟩

/-- The pieces of the texts that hold a text. -/
def holding (s : List Char) : List Piece := .run :: (s.map Piece.char ++ [.run])

theorem char_mem_holding_iff {c : Char} : Piece.char c ∈ holding s ↔ c ∈ s := by
  simp only [holding, List.mem_cons, List.mem_append, List.mem_map, List.not_mem_nil, reduceCtorEq,
    Piece.char.injEq, exists_eq_right, or_false, false_or]

theorem spells_run (v : List Char) : Spells [.run] v := ⟨v, [], (List.append_nil v).symm, rfl⟩

theorem spells_holding_iff : Spells (holding s) v ↔ s <:+: v := by
  rw [holding, Spells]
  simp only [spells_map_char_append_iff, spells_run, and_true]
  constructor
  · rintro ⟨u, -, rfl, w, rfl⟩
    exact ⟨u, w, List.append_assoc u s w⟩
  · rintro ⟨u, w, rfl⟩
    exact ⟨u, s ++ w, List.append_assoc u s w, w, rfl⟩

namespace Regex

theorem read?_escapeRegex_between (s : List Char) :
    read? (['.', '*'] ++ escapeRegex s ++ ['.', '*']) = some (holding s) := by
  rw [List.append_assoc, List.cons_append, List.singleton_append, read?, read?_escapeRegex_append]
  rfl

theorem fits_iff_spells (hline : '\n' ∉ v) : fits ps v = true ↔ Spells ps v := by
  induction ps generalizing v with
  | nil => rw [fits, List.isEmpty_iff, Spells]
  | cons p ps ih =>
    cases p with
    | run =>
      rw [fits, afterRun_iff, Spells]
      constructor
      · rintro ⟨u, w, rfl, -, hw⟩
        exact ⟨u, w, rfl, (ih fun h => hline (List.mem_append_right u h)).mp hw⟩
      · rintro ⟨u, w, rfl, hw⟩
        rw [List.mem_append, not_or] at hline
        exact ⟨u, w, rfl, hline.1, (ih hline.2).mpr hw⟩
    | any =>
      cases v with
      | nil =>
        refine iff_of_false Bool.false_ne_true ?_
        rintro ⟨x, w, h, -⟩
        cases h
      | cons x w =>
        rw [List.mem_cons, not_or] at hline
        simp only [fits, Spells, Bool.and_eq_true, bne_iff_ne, ih hline.2, Ne.symm hline.1,
          List.cons.injEq, and_assoc, exists_and_left, exists_eq_left', ne_eq, not_false_eq_true,
          true_and]
    | char c =>
      cases v with
      | nil =>
        refine iff_of_false Bool.false_ne_true ?_
        rintro ⟨w, h, -⟩
        cases h
      | cons x w =>
        rw [List.mem_cons, not_or] at hline
        simp only [fits, Spells, Bool.and_eq_true, beq_iff_eq, ih hline.2, List.cons.injEq,
          and_assoc, exists_and_left, exists_eq_left']

/-- A line feed in the value is taken by the piece for it, and by no other. -/
theorem notMem_of_fits (hps : Piece.char '\n' ∉ ps) (h : fits ps v = true) : '\n' ∉ v := by
  induction ps generalizing v with
  | nil =>
    rw [fits, List.isEmpty_iff] at h
    rw [h]
    exact List.not_mem_nil
  | cons p ps ih =>
    rw [List.mem_cons, not_or] at hps
    obtain ⟨hp, hps⟩ := hps
    cases p with
    | run =>
      rw [fits, afterRun_iff] at h
      obtain ⟨u, w, rfl, hu, hw⟩ := h
      rw [List.mem_append, not_or]
      exact ⟨hu, ih hps hw⟩
    | any =>
      cases v with
      | nil => exact List.not_mem_nil
      | cons x w =>
        rw [fits, Bool.and_eq_true, bne_iff_ne] at h
        exact List.not_mem_cons_of_ne_of_not_mem (Ne.symm h.1) (ih hps h.2)
    | char c =>
      cases v with
      | nil => exact List.not_mem_nil
      | cons x w =>
        rw [fits, Bool.and_eq_true, beq_iff_eq] at h
        obtain ⟨rfl, hw⟩ := h
        exact List.not_mem_cons_of_ne_of_not_mem (fun hx => hp (hx ▸ rfl)) (ih hps hw)

theorem fits_iff_notMem_and_spells (hps : Piece.char '\n' ∉ ps) :
    fits ps v = true ↔ '\n' ∉ v ∧ Spells ps v := by
  constructor
  · intro h
    have hline := notMem_of_fits hps h
    exact ⟨hline, (fits_iff_spells hline).mp h⟩
  · rintro ⟨hline, h⟩
    exact (fits_iff_spells hline).mpr h

end Regex

end ResourceIndex.Query
