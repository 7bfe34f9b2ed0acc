import ResourceIndex.Proofs.Cluster.Patterns
import ResourceIndex.Proofs.Query.Meaning
/-
Queries of the cluster. However analyzed fields are cut into words, what a clause is said as
selects the resources which have what the clause asks for, and a query for several clauses those
which meet them all.
-/
namespace ResourceIndex.Cluster

open Query (Clause Comparison Field Value)

variable {a : Analyzer} {q : Query} {c : Clause} {r : Resource} {s : String}

/-- How the cluster compares, given how it cuts texts into words. A text without words is
nowhere. -/
def comparison (a : Analyzer) : Comparison where
  fits p v := wildcardFits p v = true
  within s v := s <:+: v
  words f s r :=
    let sought := a.words (.ofField f) s.toList
    sought ≠ [] ∧ ∀ w ∈ sought, w ∈ a.words (.ofField f) ((IndexField.ofField f).textOf r)
  phrase f s r :=
    let sought := a.words (.ofField f) s.toList
    sought ≠ [] ∧ sought <:+: a.words (.ofField f) ((IndexField.ofField f).textOf r)

theorem holdsRun_iff {sought words : List (List Char)} :
    holdsRun sought words = true ↔ sought <:+: words := by
  induction words with
  | nil => rw [holdsRun, List.isEmpty_iff, List.infix_nil]
  | cons w ws ih =>
    rw [holdsRun, Bool.or_eq_true, ih, List.isPrefixOf_iff_prefix, List.infix_cons_iff]

namespace Dsl

theorem someSelects_iff {qs : List Dsl} :
    someSelects a qs r = true ↔ ∃ p ∈ qs, p.selects a r = true := by
  induction qs with
  | nil => exact iff_of_false (by rw [someSelects]; exact Bool.false_ne_true) (by simp)
  | cons p qs ih => rw [someSelects, Bool.or_eq_true, ih, List.exists_mem_cons_iff]

theorem allSelect_iff {qs : List Dsl} :
    allSelect a qs r = true ↔ ∀ p ∈ qs, p.selects a r = true := by
  induction qs with
  | nil => exact iff_of_true (by rw [allSelect]) (by simp)
  | cons p qs ih => rw [allSelect, Bool.and_eq_true, ih, List.forall_mem_cons]

/-- What the clauses with a sign are said as. -/
def signed (occur : Query.Occur) (q : Query) : List Dsl :=
  (q.clauses.filter fun c => c.occur == occur).map ofClause

theorem mem_signed {occur : Query.Occur} {p : Dsl} :
    p ∈ signed occur q ↔ ∃ c ∈ q.clauses, c.occur = occur ∧ ofClause c = p := by
  simp only [signed, List.mem_map, List.mem_filter, beq_iff_eq, and_assoc]

theorem allSelect_signed_iff {occur : Query.Occur} : allSelect a (signed occur q) r = true ↔
    ∀ c ∈ q.clauses, c.occur = occur → (ofClause c).selects a r = true := by
  rw [allSelect_iff]
  constructor
  · intro h c hc hoccur
    exact h _ (mem_signed.mpr ⟨c, hc, hoccur, rfl⟩)
  · intro h p hp
    obtain ⟨c, hc, hoccur, rfl⟩ := mem_signed.mp hp
    exact h c hc hoccur

theorem someSelects_signed_iff {occur : Query.Occur} :
    someSelects a (signed occur q) r = true ↔
      ∃ c ∈ q.clauses, c.occur = occur ∧ (ofClause c).selects a r = true := by
  rw [someSelects_iff]
  constructor
  · rintro ⟨p, hp, hselects⟩
    obtain ⟨c, hc, hoccur, rfl⟩ := mem_signed.mp hp
    exact ⟨c, hc, hoccur, hselects⟩
  · rintro ⟨c, hc, hoccur, hselects⟩
    exact ⟨_, mem_signed.mpr ⟨c, hc, hoccur, rfl⟩, hselects⟩

theorem selects_ofQuery (a : Analyzer) (q : Query) (r : Resource) :
    (ofQuery q).selects a r =
      (allSelect a (signed .must q) r && !someSelects a (signed .mustNot q) r) := by
  rw [ofQuery]
  split
  · rename_i hall
    have hnil : q.clauses = [] := List.isEmpty_iff.mp hall
    simp only [selects, signed, hnil]
    rfl
  · change selects a (allBut (if (signed .must q).isEmpty then [matchAll] else signed .must q)
      (signed .mustNot q)) r = _
    split
    · rename_i hempty
      rw [List.isEmpty_iff.mp hempty]
      simp only [selects, allSelect, Bool.true_and]
    · rw [selects]

theorem selects_ofQuery_iff (h : ∀ c ∈ q.clauses,
      (ofClause c).selects a r = true ↔ (comparison a).Has r c.field c.value) :
    (ofQuery q).selects a r = true ↔ (comparison a).Meets r q := by
  rw [selects_ofQuery, Bool.and_eq_true, Bool.not_eq_true', ← Bool.not_eq_true,
    allSelect_signed_iff, someSelects_signed_iff]
  exact Comparison.meets_iff_of_has h

theorem selects_term_iff (f : Field) (s : String) :
    (term (.ofField f) (lowered s)).selects a r = true ↔
      Text.lower s.toList ∈ (IndexField.ofField f).valuesOf r := by
  rw [selects, List.contains_iff_mem, lowered, String.toList_ofList]

theorem selects_pattern_iff (f : Field) (s : List Char) :
    (pattern (.ofField f) s).selects a r = true ↔
      ∃ v ∈ (IndexField.ofField f).valuesOf r, (comparison a).fits (Text.lower s) v := by
  rw [pattern, selects, List.any_eq_true, String.toList_ofList]
  rfl

theorem selects_nameWith_iff (s : List Char) :
    (pattern .name ('*' :: escapePattern s ++ ['*'])).selects a r = true ↔
      ∃ v ∈ Field.name.valuesOf r, (comparison a).within (Text.lower s) v := by
  rw [pattern, selects, List.any_eq_true, String.toList_ofList, lower_escapePattern_between]
  simp only [wildcardFits_escapePattern_between_iff]
  rfl

theorem selects_words_iff (f : Field) (s : String) :
    (words (.ofField f) s).selects a r = true ↔ (comparison a).words f s r := by
  simp only [selects, Bool.and_eq_true, Bool.not_eq_true', List.isEmpty_eq_false_iff,
    List.all_eq_true, List.contains_iff_mem]
  rfl

theorem selects_phrase_iff (f : Field) (s : String) :
    (phrase (.ofField f) s).selects a r = true ↔ (comparison a).phrase f s r := by
  simp only [selects, Bool.and_eq_true, Bool.not_eq_true', List.isEmpty_eq_false_iff,
    holdsRun_iff]
  rfl

theorem selects_kind_iff (k : ResourceKind) :
    (term .kind k.name).selects a r = true ↔ r.kind = k := by
  rw [selects, List.contains_iff_mem]
  exact Query.name_mem_singleton_iff

theorem valuesOf_ofField {f : Field} (hf : f.isKeyword = true) (r : Resource) :
    (IndexField.ofField f).valuesOf r = f.valuesOf r := by
  cases f with
  | name | tags | mimeType => rfl
  | title | content | kind => cases hf

theorem selects_fielded_iff {occur : Query.Occur} {f : Field} {v : Value}
    (h : (⟨occur, some f, v⟩ : Clause).Expressible) :
    (fielded f v).selects a r = true ↔ (comparison a).Has r (some f) v := by
  cases v with
  | term s =>
    rw [fielded, Comparison.Has]
    split
    · rename_i hf
      rw [selects_term_iff, valuesOf_ofField hf]
      rfl
    · exact selects_words_iff f s
  | phrase s =>
    rw [fielded, Comparison.Has]
    split
    · rename_i hf
      rw [selects_term_iff, valuesOf_ofField hf]
      rfl
    · exact selects_phrase_iff f s
  | wildcard s =>
    rw [fielded, selects_pattern_iff, valuesOf_ofField (h.wildcard s rfl).1]
    rfl
  | kind k =>
    cases h.kind_iff.mpr ⟨k, rfl⟩
    exact selects_kind_iff k

theorem selects_free_iff {occur : Query.Occur} {v : Value}
    (h : (⟨occur, none, v⟩ : Clause).Expressible) :
    (free v).selects a r = true ↔ (comparison a).Has r none v := by
  cases v with
  | term s =>
    rw [free, selects, someSelects_iff]
    simp only [List.exists_mem_cons_iff, List.not_mem_nil, false_and, exists_false, or_false]
    exact or_congr (selects_nameWith_iff s.toList) (or_congr (selects_words_iff .title s)
      (or_congr (selects_words_iff .content s) (selects_term_iff .tags s)))
  | phrase s =>
    rw [free, selects, someSelects_iff]
    simp only [List.exists_mem_cons_iff, List.not_mem_nil, false_and, exists_false, or_false]
    exact or_congr (selects_term_iff .name s)
      (or_congr (selects_phrase_iff .title s) (selects_phrase_iff .content s))
  | wildcard s =>
    rw [free, selects, someSelects_iff]
    simp only [List.exists_mem_cons_iff, List.not_mem_nil, false_and, exists_false, or_false]
    exact or_congr (selects_pattern_iff .name s.toList) (selects_pattern_iff .tags s.toList)
  | kind k => cases h.kind_iff.mpr ⟨k, rfl⟩

/-- What a clause is said as selects the resources that have what the clause asks for. -/
theorem selects_ofClause_iff (h : c.Expressible) :
    (ofClause c).selects a r = true ↔ (comparison a).Has r c.field c.value := by
  obtain ⟨occur, field, v⟩ := c
  cases field with
  | none => exact selects_free_iff h
  | some f => exact selects_fielded_iff h

end Dsl

end ResourceIndex.Cluster
