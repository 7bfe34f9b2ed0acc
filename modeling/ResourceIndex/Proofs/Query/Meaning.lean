import ResourceIndex.Proofs.Query.Clauses
import ResourceIndex.Text.Lowercase
/-
What queries mean. A clause asks for something that a resource has or has not; how an index
compares patterns, texts and words is left to the index. A resource meets a query if it has what
the clauses ask for that must hold, and nothing of what the others ask for.
-/
namespace ResourceIndex.Query

variable {q : Query} {c : Clause} {r : Resource}

/-- The values of a resource in a field that is compared as a whole, in lower case. -/
def Field.valuesOf : Field → Resource → List (List Char)
  | .name, r => [Text.lowerChars r.document.name.toList]
  | .tags, r => r.document.tags.toList.map fun t => Text.lowerChars t.toList
  | .mimeType, r => [Text.lowerChars r.document.mimeType.toList]
  | .title, _ | .content, _ | .kind, _ => []

/-- How an index compares what is sought with what a resource has. -/
structure Comparison where
  /-- Whether a pattern stands for a value. -/
  fits : List Char → List Char → Prop
  /-- Whether a text is found inside a value. -/
  within : List Char → List Char → Prop
  /-- Whether the words of a text are in an analyzed field. -/
  words : Field → String → Resource → Prop
  /-- Whether the words of a text are in an analyzed field one after another. -/
  phrase : Field → String → Resource → Prop

namespace Comparison

variable {m : Comparison}

def IsValue (f : Field) (s : String) (r : Resource) : Prop := Text.lower s.toList ∈ f.valuesOf r

def FitsValue (m : Comparison) (f : Field) (s : String) (r : Resource) : Prop :=
  ∃ v ∈ f.valuesOf r, m.fits (Text.lower s.toList) v

/-- Whether a resource has what a clause asks for. -/
def Has (m : Comparison) (r : Resource) : Option Field → Value → Prop
  | _, .kind k => r.kind = k
  | some f, .wildcard s => m.FitsValue f s r
  | some f, .term s => if f.isKeyword then IsValue f s r else m.words f s r
  | some f, .phrase s => if f.isKeyword then IsValue f s r else m.phrase f s r
  | none, .wildcard s => m.FitsValue .name s r ∨ m.FitsValue .tags s r
  | none, .term s => (∃ v ∈ Field.name.valuesOf r, m.within (Text.lower s.toList) v) ∨
      m.words .title s r ∨ m.words .content s r ∨ IsValue .tags s r
  | none, .phrase s => IsValue .name s r ∨ m.phrase .title s r ∨ m.phrase .content s r

/-- Whether a resource meets a query. -/
structure Meets (m : Comparison) (r : Resource) (q : Query) : Prop where
  required : ∀ c ∈ q.clauses, c.occur = .must → m.Has r c.field c.value
  excluded : ∀ c ∈ q.clauses, c.occur = .mustNot → ¬ m.Has r c.field c.value

end Comparison

def Occur.other : Occur → Occur
  | .must => .mustNot
  | .mustNot => .must

/-- The clause with the other sign. -/
def Clause.negated (c : Clause) : Clause := { c with occur := c.occur.other }

/-- The clause as one that must hold. -/
def Clause.affirmed (c : Clause) : Clause := { c with occur := .must }

/-- The shape of a clause does not depend on its sign. -/
theorem Clause.Expressible.withOccur (h : c.Expressible) (occur : Occur) :
    ({ c with occur } : Clause).Expressible :=
  ⟨h.kind_iff, h.kind, h.phrase, h.word, h.wildcard, h.term, h.unnamed⟩

theorem isPurelyNegative_iff :
    q.isPurelyNegative = true ↔ q.clauses ≠ [] ∧ ∀ c ∈ q.clauses, c.occur = .mustNot := by
  simp only [isPurelyNegative, Bool.and_eq_true, Bool.not_eq_true', List.isEmpty_eq_false_iff,
    List.all_eq_true, beq_iff_eq]

theorem name_mem_singleton_iff {k k' : ResourceKind} :
    k.name.toList ∈ [k'.name.toList] ↔ k' = k := by
  rw [List.mem_singleton]
  constructor
  · cases k <;> cases k' <;> decide
  · rintro rfl
    rfl

namespace Comparison

variable {m : Comparison} {select : Query → Resource → Bool}

theorem meets_iff :
    m.Meets r q ↔ ∀ c ∈ q.clauses, (c.occur = .must ↔ m.Has r c.field c.value) := by
  constructor
  · intro h c hc
    cases hoccur : c.occur with
    | must => exact iff_of_true rfl (h.required c hc hoccur)
    | mustNot => exact iff_of_false (fun hmust => nomatch hmust) (h.excluded c hc hoccur)
  · intro h
    constructor
    · exact fun c hc hoccur => (h c hc).mp hoccur
    · intro c hc hoccur hhas
      rw [← h c hc, hoccur] at hhas
      cases hhas

/-- It is enough to select for each clause what has what the clause asks for. -/
theorem meets_iff_of_has {p : Clause → Prop}
    (h : ∀ c ∈ q.clauses, p c ↔ m.Has r c.field c.value) :
    ((∀ c ∈ q.clauses, c.occur = .must → p c) ∧ ¬ ∃ c ∈ q.clauses, c.occur = .mustNot ∧ p c) ↔
      m.Meets r q := by
  constructor
  · rintro ⟨hmust, hnot⟩
    exact ⟨fun c hc hoccur => (h c hc).mp (hmust c hc hoccur),
      fun c hc hoccur hhas => hnot ⟨c, hc, hoccur, (h c hc).mpr hhas⟩⟩
  · intro hmeets
    refine ⟨fun c hc hoccur => (h c hc).mpr (hmeets.required c hc hoccur), ?_⟩
    rintro ⟨c, hc, hoccur, hp⟩
    exact hmeets.excluded c hc hoccur ((h c hc).mp hp)

theorem meets_singleton_iff :
    m.Meets r ⟨[c]⟩ ↔ (c.occur = .must ↔ m.Has r c.field c.value) := by
  rw [meets_iff, List.forall_mem_singleton]

theorem meets_affirmed_iff : m.Meets r ⟨[c.affirmed]⟩ ↔ m.Has r c.field c.value := by
  rw [meets_singleton_iff]
  exact iff_true_left rfl

theorem meets_negated_iff : m.Meets r ⟨[c.negated]⟩ ↔ ¬ m.Meets r ⟨[c]⟩ := by
  rw [meets_singleton_iff, meets_singleton_iff]
  have hother : c.negated.occur = .must ↔ ¬ c.occur = .must := by
    change c.occur.other = .must ↔ _
    cases c.occur with
    | must => decide
    | mustNot => decide
  rw [hother, not_iff]
  rfl

/-- The index selects what meets the query: everything if there are no clauses, what none of the
clauses selects if none must hold, and a clause and its negation share the resources out. -/
structure Decides (m : Comparison) (select : Query → Resource → Bool) (q : Query) : Prop where
  meets : ∀ r, select q r = true ↔ m.Meets r q
  everything : q.clauses = [] → ∀ r, select q r = true
  none_of : q.isPurelyNegative = true →
    ∀ r, select q r = true ↔ ∀ c ∈ q.clauses, select ⟨[c.affirmed]⟩ r = false
  split : ∀ c, q.clauses = [c] → ∀ r, select ⟨[c.negated]⟩ r = !select q r

theorem decides_of_meets
    (h : ∀ q : Query, (∀ c ∈ q.clauses, c.Expressible) → ∀ r, select q r = true ↔ m.Meets r q)
    (hq : ∀ c ∈ q.clauses, c.Expressible) : m.Decides select q where
  meets := h q hq
  everything := by
    intro hnil r
    rw [h q hq, meets_iff, hnil]
    exact fun c hc => absurd hc List.not_mem_nil
  none_of := by
    intro hneg r
    rw [h q hq, meets_iff]
    refine forall₂_congr fun c hc => ?_
    rw [(isPurelyNegative_iff.mp hneg).2 c hc, ← Bool.not_eq_true, h ⟨[c.affirmed]⟩,
      meets_affirmed_iff]
    · simp only [reduceCtorEq, false_iff]
    · rw [List.forall_mem_singleton]
      exact (hq c hc).withOccur .must
  split := by
    intro c hc r
    have hshape : c.Expressible := hq c (hc ▸ List.mem_singleton_self c)
    obtain ⟨clauses⟩ := q
    subst hc
    rw [Bool.eq_iff_iff, Bool.not_eq_true', ← Bool.not_eq_true, h ⟨[c]⟩ hq, h ⟨[c.negated]⟩,
      meets_negated_iff]
    rw [List.forall_mem_singleton]
    exact hshape.withOccur c.occur.other

end Comparison

end ResourceIndex.Query
