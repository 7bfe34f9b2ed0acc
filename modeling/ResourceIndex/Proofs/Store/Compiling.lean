import Mathlib.Data.List.Basic
import ResourceIndex.Store.Query
/-
Which queries are turned into plans. The plan of a query does not depend on the builder of automata;
whether there is one does, for patterns and for words that are sought within names.
-/
namespace ResourceIndex.Store.Plan

variable [RegexBuilder] {p q : Query} {c : Query.Clause}

/-- The builder takes the expressions of all clauses. -/
def Compiles (q : Query) : Prop := ∀ c ∈ q.clauses, (ofClause c).refusal? = Option.none

instance (q : Query) : Decidable (Compiles q) := List.decidableBAll _ q.clauses

theorem compile_of_compiles (h : Compiles q) : compile q = .ok (ofQuery q) := by
  rw [compile, List.findSome?_eq_none_iff.mpr h]

/-- A query that has no plan has a clause that is refused, for the reason that is given. -/
theorem exists_refused_of_not_compiles (h : ¬ Compiles q) :
    ∃ c ∈ q.clauses, ∃ reason, (ofClause c).refusal? = some reason ∧
      compile q = .error (.store reason) := by
  cases hfirst : q.clauses.findSome? fun c => (ofClause c).refusal? with
  | none => exact absurd (List.findSome?_eq_none_iff.mp hfirst) h
  | some reason =>
    obtain ⟨c, hc, hreason⟩ := List.exists_of_findSome?_eq_some hfirst
    exact ⟨c, hc, reason, hreason, by rw [compile, hfirst]⟩

/-- Clauses are turned into plans one by one. -/
theorem compiles_append_iff : Compiles ⟨p.clauses ++ q.clauses⟩ ↔ Compiles p ∧ Compiles q :=
  List.forall_mem_append

theorem refusal?_analyzed (field : TextField) (s : List Char) (quoted : Bool) :
    (analyzed field s quoted).refusal? = Option.none := by
  unfold analyzed
  split
  · rfl
  · rfl
  · split
    · rfl
    · rfl

/-- Without patterns, and with a field for each word, there is nothing to refuse. -/
theorem refusal?_ofClause (hfield : c.field ≠ Option.none) (hvalue : ∀ s, c.value ≠ .wildcard s) :
    (ofClause c).refusal? = Option.none := by
  obtain ⟨occur, field, value⟩ := c
  cases field with
  | none => exact absurd rfl hfield
  | some field =>
    cases value with
    | wildcard s => exact absurd rfl (hvalue s)
    | term s | phrase s | kind k =>
      cases field with
      | name | tags | mimeType | kind => rfl
      | title | content => exact refusal?_analyzed _ _ _

theorem refusal?_name_wildcard (occur : Query.Occur) (s : String) :
    (ofClause ⟨occur, some .name, .wildcard s⟩).refusal? =
      RegexBuilder.refusal? (Query.globRegex (Text.lower s.toList)) := rfl

theorem compiles_of_plain
    (h : ∀ c ∈ q.clauses, c.field ≠ Option.none ∧ ∀ s, c.value ≠ .wildcard s) : Compiles q :=
  fun c hc => refusal?_ofClause (h c hc).1 (h c hc).2

end ResourceIndex.Store.Plan
