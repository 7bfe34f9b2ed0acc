import ResourceIndex.Text.Cut
/- Laws of cutting and joining: pieces hold no separator, and pieces that are led by separators
are found again. -/
namespace ResourceIndex.Text

/-- The pieces, each led by the separator. -/
def lead (sep : Char) (pieces : List (List Char)) : List Char := pieces.flatMap (sep :: ·)

@[simp] theorem lead_nil (sep : Char) : lead sep [] = [] := rfl

@[simp] theorem lead_cons (sep : Char) (piece : List Char) (pieces : List (List Char)) :
    lead sep (piece :: pieces) = sep :: piece ++ lead sep pieces := rfl

@[simp] theorem lead_append (sep : Char) (ps qs : List (List Char)) :
    lead sep (ps ++ qs) = lead sep ps ++ lead sep qs := List.flatMap_append

theorem lead_eq_join (sep : Char) (piece : List Char) (pieces : List (List Char)) :
    lead sep (piece :: pieces) = sep :: join [sep] (piece :: pieces) := by
  induction pieces generalizing piece with
  | nil => simp only [lead_cons, lead_nil, List.append_nil, join]
  | cons p ps ih =>
    rw [lead_cons, ih p]
    simp only [join, List.cons_append, List.append_assoc, List.nil_append]

theorem splitOn_of_notMem {sep : Char} {s : List Char} (h : sep ∉ s) : splitOn sep s = [s] := by
  induction s with
  | nil => rfl
  | cons c s ih =>
    have hc := List.ne_and_not_mem_of_not_mem_cons h
    rw [splitOn, if_neg (Ne.symm hc.1), ih hc.2]

theorem splitOn_ne_nil (sep : Char) (s : List Char) : splitOn sep s ≠ [] := by
  cases s with
  | nil => exact List.cons_ne_nil _ _
  | cons c s =>
    rw [splitOn]
    split
    · exact List.cons_ne_nil _ _
    · split <;> exact List.cons_ne_nil _ _

/-- Wherever a separator stands, no piece reaches over it. -/
theorem splitOn_append_sep (sep : Char) (s t : List Char) :
    splitOn sep (s ++ sep :: t) = splitOn sep s ++ splitOn sep t := by
  induction s with
  | nil => exact if_pos rfl
  | cons c s ih =>
    rw [List.cons_append, splitOn, splitOn, ih]
    split
    · rfl
    · obtain ⟨piece, pieces, hsplit⟩ := List.exists_cons_of_ne_nil (splitOn_ne_nil sep s)
      rw [hsplit]
      rfl

theorem splitOn_append_cons {sep : Char} {s : List Char} (h : sep ∉ s) (t : List Char) :
    splitOn sep (s ++ sep :: t) = s :: splitOn sep t := by
  rw [splitOn_append_sep, splitOn_of_notMem h, List.singleton_append]

theorem splitOn_append_lead {sep : Char} {s : List Char} (h : sep ∉ s)
    {pieces : List (List Char)} (hp : ∀ p ∈ pieces, sep ∉ p) :
    splitOn sep (s ++ lead sep pieces) = s :: pieces := by
  induction pieces generalizing s with
  | nil => rw [lead_nil, List.append_nil, splitOn_of_notMem h]
  | cons p ps ih =>
    obtain ⟨hh, ht⟩ := List.forall_mem_cons.mp hp
    rw [lead_cons, List.cons_append, splitOn_append_cons h, ih hh ht]

theorem notMem_of_mem_splitOn {sep : Char} {s p : List Char} (h : p ∈ splitOn sep s) : sep ∉ p := by
  induction s generalizing p with
  | nil =>
    cases List.mem_singleton.mp h
    exact List.not_mem_nil
  | cons c s ih =>
    rw [splitOn] at h
    split at h
    · rcases List.mem_cons.mp h with rfl | hp
      · exact List.not_mem_nil
      · exact ih hp
    · rename_i hc
      split at h
      · cases List.mem_singleton.mp h
        exact fun hm => hc (List.mem_singleton.mp hm).symm
      · rename_i q qs hs
        rw [hs] at ih
        rcases List.mem_cons.mp h with rfl | hp
        · exact List.not_mem_cons_of_ne_of_not_mem (Ne.symm hc) (ih List.mem_cons_self)
        · exact ih (List.mem_cons_of_mem q hp)

theorem afterLast_append_cons {sep : Char} {t : List Char} (h : sep ∉ t) (s : List Char) :
    afterLast sep (s ++ sep :: t) = t := by
  have hpass : ∀ c ∈ t.reverse, (c != sep) = true := by
    intro c hc
    rw [bne_iff_ne]
    rintro rfl
    exact h (List.mem_reverse.mp hc)
  have hstop : ((sep :: s.reverse).takeWhile fun c => c != sep) = [] := by
    rw [List.takeWhile_cons, bne_self_eq_false, if_neg Bool.false_ne_true]
  rw [afterLast, List.reverse_append, List.reverse_cons, List.append_assoc, List.singleton_append,
    List.takeWhile_append_of_pos hpass, hstop, List.append_nil, List.reverse_reverse]

theorem dropFinal_of_getLast?_ne {c : Char} {s : List Char} (h : s.getLast? ≠ some c) :
    dropFinal c s = s := if_neg h

theorem getLast?_append_lead_ne {sep : Char} {s : List Char} (hs : s.getLast? ≠ some sep)
    {pieces : List (List Char)} (hp : ∀ p ∈ pieces, p ≠ [] ∧ sep ∉ p) :
    (s ++ lead sep pieces).getLast? ≠ some sep := by
  induction pieces generalizing s with
  | nil => rwa [lead_nil, List.append_nil]
  | cons p ps ih =>
    obtain ⟨⟨hne, hsep⟩, ht⟩ := List.forall_mem_cons.mp hp
    rw [lead_cons, List.cons_append, List.append_cons, ← List.append_assoc]
    refine ih ?_ ht
    intro hl
    rw [List.getLast?_append, List.getLast?_eq_some_getLast hne, Option.some_or] at hl
    exact hsep (Option.some.inj hl ▸ List.getLast_mem hne)

/-- The text is empty or begins with the separator. -/
def Led (sep : Char) (s : List Char) : Prop := s = [] ∨ ∃ t, s = sep :: t

theorem led_lead (sep : Char) (pieces : List (List Char)) : Led sep (lead sep pieces) := by
  cases pieces with
  | nil => exact .inl rfl
  | cons p ps => exact .inr ⟨p ++ lead sep ps, rfl⟩

theorem Led.append {sep : Char} {s t : List Char} (hs : Led sep s) (ht : Led sep t) :
    Led sep (s ++ t) := by
  obtain rfl | ⟨u, rfl⟩ := hs
  · exact ht
  · exact .inr ⟨u ++ t, rfl⟩

theorem Led.eq_nil_of_append {sep : Char} {s t : List Char} (hs : sep ∉ s) (h : Led sep (s ++ t)) :
    s = [] := by
  cases s with
  | nil => rfl
  | cons c s =>
    obtain h | ⟨u, h⟩ := h
    · cases h
    · cases h
      exact absurd List.mem_cons_self hs

/-- A piece ends where the separator follows for the first time. -/
theorem append_inj_of_led {sep : Char} {p q s t : List Char} (hp : sep ∉ p) (hq : sep ∉ q)
    (hs : Led sep s) (ht : Led sep t) (h : p ++ s = q ++ t) : p = q ∧ s = t := by
  rcases List.append_eq_append_iff.mp h with ⟨as, rfl, rfl⟩ | ⟨as, rfl, rfl⟩
  · have has : as = [] :=
      hs.eq_nil_of_append fun hm => hq (List.mem_append_right p hm)
    subst has
    exact ⟨(List.append_nil p).symm, rfl⟩
  · have has : as = [] :=
      ht.eq_nil_of_append fun hm => hp (List.mem_append_right q hm)
    subst has
    exact ⟨List.append_nil q, rfl⟩

theorem prefix_of_lead_append {sep : Char} {ps qs : List (List Char)} {rest : List Char}
    (hp : ∀ p ∈ ps, sep ∉ p) (hq : ∀ q ∈ qs, sep ∉ q) (hr : Led sep rest)
    (h : lead sep qs = lead sep ps ++ rest) : ps <+: qs := by
  induction ps generalizing qs with
  | nil => exact List.nil_prefix
  | cons p ps ih =>
    obtain ⟨hph, hpt⟩ := List.forall_mem_cons.mp hp
    cases qs with
    | nil => exact nomatch h
    | cons q qs =>
      obtain ⟨hqh, hqt⟩ := List.forall_mem_cons.mp hq
      simp only [lead_cons, List.cons_append, List.cons.injEq, true_and, List.append_assoc] at h
      obtain ⟨rfl, ht⟩ :=
        append_inj_of_led hqh hph (led_lead sep qs) ((led_lead sep ps).append hr) h
      exact List.cons_prefix_cons.mpr ⟨rfl, ih hpt hqt ht⟩

theorem notMem_of_cutAt? {sep : Char} {s before behind : List Char}
    (h : cutAt? sep s = some (before, behind)) : sep ∉ before ∧ s = before ++ sep :: behind := by
  induction s generalizing before with
  | nil => cases h
  | cons c s ih =>
    rw [cutAt?] at h
    split at h
    · rename_i hc
      cases h
      exact ⟨List.not_mem_nil, by rw [hc]; rfl⟩
    · rename_i hc
      obtain ⟨⟨first, rest⟩, hcut, heq⟩ := Option.map_eq_some_iff.mp h
      cases heq
      obtain ⟨hnot, rfl⟩ := ih hcut
      exact ⟨List.not_mem_cons_of_ne_of_not_mem (Ne.symm hc) hnot, rfl⟩

theorem cutAt?_append_cons {sep : Char} {before : List Char} (h : sep ∉ before)
    (behind : List Char) : cutAt? sep (before ++ sep :: behind) = some (before, behind) := by
  induction before with
  | nil => exact if_pos rfl
  | cons c before ih =>
    have hc := List.ne_and_not_mem_of_not_mem_cons h
    rw [List.cons_append, cutAt?, if_neg (Ne.symm hc.1), ih hc.2]
    rfl

theorem cutAt?_eq_none_iff {sep : Char} {s : List Char} : cutAt? sep s = none ↔ sep ∉ s := by
  constructor
  · intro h hm
    obtain ⟨before, behind, rfl, hnot⟩ := List.eq_append_cons_of_mem hm
    rw [cutAt?_append_cons hnot] at h
    cases h
  · intro h
    cases hcut : cutAt? sep s with
    | none => rfl
    | some p =>
      obtain ⟨-, rfl⟩ := notMem_of_cutAt? hcut
      exact absurd (List.mem_append_right _ List.mem_cons_self) h

end ResourceIndex.Text
