import Mathlib.Data.List.Basic
import ResourceIndex.Proofs.Query.Meaning
import ResourceIndex.Proofs.Query.Patterns
import ResourceIndex.Proofs.Text.Lowercase
import ResourceIndex.Store.Query
/-
Queries of the store. Each clause of a parsed query is made into a plan that selects the resources
which have what the clause asks for; a plan for several asks for all that must hold, with one
that selects everything where nothing must.
-/
namespace ResourceIndex.Store

open Query (Clause Comparison Field Value)

variable {q : Query} {c : Clause} {r : Resource} {s : List Char}

def TextField.field : TextField → Field
  | .title => .title
  | .content => .content

def TextField.wordsIn (t : TextField) (s : List Char) : List (List Char) :=
  (t.analyze s).map (·.text)

/-- How the store compares: regular expressions take no line feeds, and the words of a phrase are
at consecutive positions. A text without words is nowhere. -/
def comparison : Comparison where
  fits p v := '\n' ∉ v ∧ Query.globFits p v = true
  within s v := '\n' ∉ v ∧ s <:+: v
  words f s r := ∃ t : TextField, t.field = f ∧ t.wordsIn s.toList ≠ [] ∧
    ∀ w ∈ t.wordsIn s.toList, ∃ u ∈ t.tokensOf r, u.text = w
  phrase f s r := ∃ t : TextField, t.field = f ∧ t.wordsIn s.toList ≠ [] ∧
    ∃ n, ∀ i w, (t.wordsIn s.toList)[i]? = some w →
      ∃ u ∈ t.tokensOf r, u.position = n + i ∧ u.text = w

theorem TextField.field_inj {t t' : TextField} (h : t.field = t'.field) : t = t' := by
  cases t with
  | title =>
    cases t' with
    | title => rfl
    | content => cases h
  | content =>
    cases t' with
    | title => cases h
    | content => rfl

theorem words_field_iff {t : TextField} {s : String} :
    comparison.words t.field s r ↔ t.wordsIn s.toList ≠ [] ∧
      ∀ w ∈ t.wordsIn s.toList, ∃ u ∈ t.tokensOf r, u.text = w := by
  constructor
  · rintro ⟨t', ht, h⟩
    rwa [TextField.field_inj ht] at h
  · exact fun h => ⟨t, rfl, h⟩

theorem phrase_field_iff {t : TextField} {s : String} :
    comparison.phrase t.field s r ↔ t.wordsIn s.toList ≠ [] ∧
      ∃ n, ∀ i w, (t.wordsIn s.toList)[i]? = some w →
        ∃ u ∈ t.tokensOf r, u.position = n + i ∧ u.text = w := by
  constructor
  · rintro ⟨t', ht, h⟩
    rwa [TextField.field_inj ht] at h
  · exact fun h => ⟨t, rfl, h⟩

namespace Plan

theorem someSelects_iff {ps : List Plan} :
    someSelects ps r = true ↔ ∃ p ∈ ps, p.selects r = true := by
  induction ps with
  | nil => exact iff_of_false (by rw [someSelects]; exact Bool.false_ne_true) (by simp)
  | cons p ps ih => rw [someSelects, Bool.or_eq_true, ih, List.exists_mem_cons_iff]

theorem allSelect_iff {ps : List Plan} :
    allSelect ps r = true ↔ ∀ p ∈ ps, p.selects r = true := by
  induction ps with
  | nil => exact iff_of_true (by rw [allSelect]) (by simp)
  | cons p ps ih => rw [allSelect, Bool.and_eq_true, ih, List.forall_mem_cons]

/-- The plans of the clauses with a sign. -/
def signed (occur : Query.Occur) (q : Query) : List Plan :=
  (q.clauses.filter fun c => c.occur == occur).map ofClause

theorem mem_signed {occur : Query.Occur} {p : Plan} :
    p ∈ signed occur q ↔ ∃ c ∈ q.clauses, c.occur = occur ∧ ofClause c = p := by
  simp only [signed, List.mem_map, List.mem_filter, beq_iff_eq, and_assoc]

theorem allSelect_signed_iff {occur : Query.Occur} : allSelect (signed occur q) r = true ↔
    ∀ c ∈ q.clauses, c.occur = occur → (ofClause c).selects r = true := by
  rw [allSelect_iff]
  constructor
  · intro h c hc hoccur
    exact h _ (mem_signed.mpr ⟨c, hc, hoccur, rfl⟩)
  · intro h p hp
    obtain ⟨c, hc, hoccur, rfl⟩ := mem_signed.mp hp
    exact h c hc hoccur

theorem someSelects_signed_iff {occur : Query.Occur} : someSelects (signed occur q) r = true ↔
    ∃ c ∈ q.clauses, c.occur = occur ∧ (ofClause c).selects r = true := by
  rw [someSelects_iff]
  constructor
  · rintro ⟨p, hp, hselects⟩
    obtain ⟨c, hc, hoccur, rfl⟩ := mem_signed.mp hp
    exact ⟨c, hc, hoccur, hselects⟩
  · rintro ⟨c, hc, hoccur, hselects⟩
    exact ⟨_, mem_signed.mpr ⟨c, hc, hoccur, rfl⟩, hselects⟩

/-- If something must hold, the clauses that must are enough; if nothing must, all is selected. -/
theorem selects_ofQuery (q : Query) (r : Resource) :
    (ofQuery q).selects r =
      (allSelect (signed .must q) r && !someSelects (signed .mustNot q) r) := by
  rw [ofQuery]
  split
  · rename_i hall
    have hnil : q.clauses = [] := List.isEmpty_iff.mp hall
    simp only [selects, signed, hnil]
    rfl
  · rename_i hall
    change selects (allBut (if q.isPurelyNegative then all :: signed .must q else signed .must q)
      (signed .mustNot q)) r = _
    split
    · rw [selects, List.isEmpty_cons, Bool.not_false, Bool.true_and, allSelect, selects,
        Bool.true_and]
    · rename_i hneg
      have hne : signed .must q ≠ [] := by
        intro hnil
        refine hneg (Query.isPurelyNegative_iff.mpr ⟨fun h => hall (List.isEmpty_iff.mpr h), ?_⟩)
        intro c hc
        cases hoccur : c.occur with
        | mustNot => rfl
        | must =>
          have hmem : ofClause c ∈ signed .must q := mem_signed.mpr ⟨c, hc, hoccur, rfl⟩
          rw [hnil] at hmem
          exact absurd hmem List.not_mem_nil
      rw [selects, List.isEmpty_eq_false_iff.mpr hne, Bool.not_false, Bool.true_and]

theorem selects_ofQuery_iff
    (h : ∀ c ∈ q.clauses, (ofClause c).selects r = true ↔ comparison.Has r c.field c.value) :
    (ofQuery q).selects r = true ↔ comparison.Meets r q := by
  rw [selects_ofQuery, Bool.and_eq_true, Bool.not_eq_true', ← Bool.not_eq_true,
    allSelect_signed_iff, someSelects_signed_iff]
  exact Comparison.meets_iff_of_has h

theorem standsAt_iff {tokens : List Analysis.Token} {ws : List (List Char)} {n : Nat} :
    standsAt tokens n ws = true ↔
      ∀ i w, ws[i]? = some w → ∃ u ∈ tokens, u.position = n + i ∧ u.text = w := by
  induction ws generalizing n with
  | nil => exact iff_of_true rfl fun i w h => nomatch h
  | cons x ws ih =>
    simp only [standsAt, Bool.and_eq_true, List.any_eq_true, beq_iff_eq, ih]
    constructor
    · rintro ⟨hfirst, hrest⟩ i w hw
      cases i with
      | zero =>
        cases hw
        exact hfirst
      | succ i =>
        rw [← Nat.add_assoc, Nat.add_right_comm]
        exact hrest i w hw
    · intro h
      refine ⟨h 0 x rfl, ?_⟩
      intro i w hw
      rw [Nat.add_right_comm, Nat.add_assoc]
      exact h (i + 1) w hw

theorem selects_exactly_iff (field : KeywordField) :
    (exactly field s).selects r = true ↔ Text.lower s ∈ field.valuesOf r := by
  rw [exactly, selects, List.contains_iff_mem]

theorem selects_pattern_iff (field : KeywordField) (hs : '\n' ∉ s) :
    (pattern field s).selects r = true ↔
      ∃ v ∈ field.valuesOf r, comparison.fits (Text.lower s) v := by
  have hlower : '\n' ∉ Text.lower s := fun h => hs ((Text.mem_lower_iff (by decide)).mp h)
  simp only [pattern, selects, List.any_eq_true, Query.Regex.covers_globRegex_iff hlower]
  rfl

theorem selects_nameWith_iff (hs : '\n' ∉ s) :
    (nameWith s).selects r = true ↔
      ∃ v ∈ Field.name.valuesOf r, comparison.within (Text.lower s) v := by
  have hlower : '\n' ∉ Text.lower s := fun h => hs ((Text.mem_lower_iff (by decide)).mp h)
  simp only [nameWith, selects, List.any_eq_true, Query.Regex.covers_escapeRegex_between_iff hlower]
  rfl

theorem selects_words_iff (t : TextField) (s : String) :
    (analyzed t s.toList false).selects r = true ↔ comparison.words t.field s r := by
  rw [words_field_iff, analyzed, ← TextField.wordsIn]
  cases t.wordsIn s.toList with
  | nil => exact iff_of_false Bool.false_ne_true fun h => h.1 rfl
  | cons w ws =>
    rw [and_iff_right (List.cons_ne_nil w ws)]
    cases ws with
    | nil =>
      simp only [selects, List.any_eq_true, beq_iff_eq, List.forall_mem_singleton]
    | cons x ws =>
      simp only [Bool.false_eq_true, if_false, selects, List.all_eq_true, List.any_eq_true,
        beq_iff_eq]

theorem selects_phrase_iff (t : TextField) (s : String) :
    (analyzed t s.toList true).selects r = true ↔ comparison.phrase t.field s r := by
  rw [phrase_field_iff, analyzed, ← TextField.wordsIn]
  cases t.wordsIn s.toList with
  | nil => exact iff_of_false Bool.false_ne_true fun h => h.1 rfl
  | cons w ws =>
    rw [and_iff_right (List.cons_ne_nil w ws)]
    cases ws with
    | nil =>
      simp only [selects, List.any_eq_true, beq_iff_eq]
      constructor
      · rintro ⟨u, hu, htext⟩
        refine ⟨u.position, ?_⟩
        intro i x hx
        cases i with
        | zero =>
          cases hx
          exact ⟨u, hu, rfl, htext⟩
        | succ i => cases hx
      · rintro ⟨n, h⟩
        obtain ⟨u, hu, -, htext⟩ := h 0 w rfl
        exact ⟨u, hu, htext⟩
    | cons x ws =>
      simp only [if_true, selects, List.any_eq_true, standsAt_iff]
      constructor
      · rintro ⟨u, -, h⟩
        exact ⟨u.position, h⟩
      · rintro ⟨n, h⟩
        obtain ⟨u, hu, hposition, -⟩ := h 0 w rfl
        refine ⟨u, hu, ?_⟩
        rwa [hposition]

theorem selects_kind_iff (k : ResourceKind) :
    (exactly .kind k.name.toList).selects r = true ↔ r.kind = k := by
  have hlower : Text.lower k.name.toList = k.name.toList := by
    cases k with
    | file | container | symlink | reference => decide
  rw [selects_exactly_iff, hlower]
  exact Query.name_mem_singleton_iff

theorem selects_keywordValue_iff {occur : Query.Occur} {f : Field} {v : Value}
    {keyword : KeywordField} (hf : f.isKeyword = true)
    (hvalues : keyword.valuesOf r = f.valuesOf r)
    (h : (⟨occur, some f, v⟩ : Clause).Expressible) :
    (keywordValue keyword v).selects r = true ↔ comparison.Has r (some f) v := by
  cases v with
  | term s | phrase s =>
    rw [keywordValue, selects_exactly_iff, hvalues, Comparison.Has, if_pos hf]
    rfl
  | wildcard s =>
    rw [keywordValue, selects_pattern_iff keyword (h.notMem_line_feed (.inr rfl)), hvalues]
    rfl
  | kind k =>
    cases h.kind_iff.mpr ⟨k, rfl⟩
    cases hf

theorem selects_textValue_iff {occur : Query.Occur} {t : TextField} {v : Value}
    (h : (⟨occur, some t.field, v⟩ : Clause).Expressible) :
    (textValue t v).selects r = true ↔ comparison.Has r (some t.field) v := by
  have hfield : t.field.isKeyword = false ∧ t.field ≠ .kind := by
    cases t with
    | title | content => decide
  cases v with
  | term s =>
    rw [textValue, selects_words_iff, Comparison.Has, hfield.1, if_neg Bool.false_ne_true]
  | phrase s =>
    rw [textValue, selects_phrase_iff, Comparison.Has, hfield.1, if_neg Bool.false_ne_true]
  | wildcard s =>
    have hpatterns : t.field.isKeyword = true := (h.wildcard s rfl).1
    rw [hfield.1] at hpatterns
    cases hpatterns
  | kind k => exact absurd (Option.some.inj (h.kind_iff.mpr ⟨k, rfl⟩)) hfield.2

theorem selects_free_iff {occur : Query.Occur} {v : Value}
    (h : (⟨occur, Option.none, v⟩ : Clause).Expressible) :
    (free v).selects r = true ↔ comparison.Has r Option.none v := by
  cases v with
  | term s =>
    have hline : '\n' ∉ s.toList := h.notMem_line_feed (.inl rfl)
    simp only [free, selects, someSelects, Bool.or_eq_true, Bool.false_eq_true, or_false,
      selects_nameWith_iff hline, selects_words_iff, selects_exactly_iff]
    rfl
  | phrase s =>
    simp only [free, selects, someSelects, Bool.or_eq_true, Bool.false_eq_true, or_false,
      selects_phrase_iff, selects_exactly_iff]
    rfl
  | wildcard s =>
    have hline : '\n' ∉ s.toList := h.notMem_line_feed (.inr rfl)
    simp only [free, selects, someSelects, Bool.or_eq_true, Bool.false_eq_true, or_false,
      selects_pattern_iff _ hline]
    rfl
  | kind k => cases h.kind_iff.mpr ⟨k, rfl⟩

/-- The plan of a clause selects the resources that have what the clause asks for. -/
theorem selects_ofClause_iff (h : c.Expressible) :
    (ofClause c).selects r = true ↔ comparison.Has r c.field c.value := by
  obtain ⟨occur, field, v⟩ := c
  cases field with
  | none => exact selects_free_iff h
  | some f =>
    cases f with
    | name => exact selects_keywordValue_iff rfl rfl h
    | tags => exact selects_keywordValue_iff rfl rfl h
    | mimeType => exact selects_keywordValue_iff rfl rfl h
    | title => exact selects_textValue_iff h
    | content => exact selects_textValue_iff h
    | kind =>
      obtain ⟨k, rfl⟩ := h.kind_iff.mp rfl
      exact selects_kind_iff k

end Plan

end ResourceIndex.Store
