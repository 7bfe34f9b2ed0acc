import ResourceIndex.Proofs.Cluster.Queries
import ResourceIndex.Proofs.Store.Queries
/-
Free words in names. Both indexes offer alternatives for a free word, one of which looks at the name
and the others do not. However the word is escaped, that one has the characters of the word for its
pieces, between two runs, so it selects the names that hold the word in lower case.
-/
namespace ResourceIndex

/-- The name of a resource as both indexes store it. -/
def storedName (r : Resource) : List Char := Text.lowerChars r.document.name.toList

/-- What is selected does not depend on the name. -/
def IgnoresName (select : Resource → Bool) : Prop :=
  ∀ (r : Resource) (name : String),
    select { r with document := { r.document with name } } = select r

namespace Store.Plan

variable {r : Resource} {s : List Char}

/-- The plan is one of alternatives, of which only `part` may look at names. -/
def HasNamePart (plan part : Plan) : Prop :=
  ∃ others, plan = .anyOf (part :: others) ∧ ∀ p ∈ others, IgnoresName p.selects

theorem ignoresName_analyzed (field : TextField) (s : List Char) (quoted : Bool) :
    IgnoresName (analyzed field s quoted).selects := by
  intro r name
  have htokens : field.tokensOf { r with document := { r.document with name } } =
      field.tokensOf r := by
    cases field with
    | title | content => rfl
  rw [analyzed]
  split
  · rw [selects, selects]
  · rw [selects, selects, htokens]
  · split
    · rw [selects, selects, htokens]
    · rw [selects, selects, htokens]

theorem ignoresName_tags (s : List Char) : IgnoresName (exactly .tags s).selects := by
  intro r name
  rw [exactly, selects, selects]
  rfl

theorem hasNamePart_free (s : String) : (free (.term s)).HasNamePart (nameWith s.toList) := by
  refine ⟨_, rfl, ?_⟩
  simp only [List.forall_mem_cons, ignoresName_analyzed, ignoresName_tags, true_and]
  exact fun _ h => absurd h List.not_mem_nil

theorem selects_nameWith_iff_infix (hs : '\n' ∉ s) :
    (nameWith s).selects r = true ↔ '\n' ∉ storedName r ∧ Text.lower s <:+: storedName r := by
  rw [selects_nameWith_iff hs]
  simp only [Query.Field.valuesOf, List.mem_singleton, exists_eq_left]
  rfl

end Store.Plan

namespace Cluster.Dsl

variable {a : Analyzer} {r : Resource}

/-- The query is one of alternatives, of which only `part` may look at names. -/
def HasNamePart (query part : Dsl) : Prop :=
  ∃ others, query = .anyOf (part :: others) ∧ ∀ d ∈ others, ∀ a, IgnoresName (d.selects a)

theorem ignoresName_words (f : Query.Field) (s : String) (a : Analyzer) :
    IgnoresName ((words (.ofField f) s).selects a) := by
  intro r name
  have htext : (IndexField.ofField f).textOf { r with document := { r.document with name } } =
      (IndexField.ofField f).textOf r := by
    cases f with
    | name | title | content | tags | mimeType | kind => rfl
  rw [selects, selects, htext]

theorem ignoresName_tags (s : String) (a : Analyzer) : IgnoresName ((term .tags s).selects a) := by
  intro r name
  rw [selects, selects]
  rfl

theorem hasNamePart_free (s : String) :
    (free (.term s)).HasNamePart (pattern .name ('*' :: escapePattern s.toList ++ ['*'])) := by
  refine ⟨_, rfl, ?_⟩
  rw [List.forall_mem_cons, List.forall_mem_cons, List.forall_mem_singleton]
  exact ⟨ignoresName_words .title s, ignoresName_words .content s, ignoresName_tags (lowered s)⟩

theorem selects_nameWith_iff_infix (s : List Char) :
    (pattern .name ('*' :: escapePattern s ++ ['*'])).selects a r = true ↔
      Text.lower s <:+: storedName r := by
  rw [selects_nameWith_iff]
  simp only [Query.Field.valuesOf, List.mem_singleton, exists_eq_left]
  rfl

end Cluster.Dsl

namespace Query

/-- What looks at names for a free word reads the word character by character in both indexes, and
selects the names that hold it, those with line feeds apart in the store. -/
theorem free_word_sought_in_names {text t : String} {q : Query} {occur : Occur}
    (h : parse text = .ok q) (hc : (⟨occur, none, .term t⟩ : Clause) ∈ q.clauses) :
    (∃ e, (Store.Plan.ofClause ⟨occur, none, .term t⟩).HasNamePart (.regex .name e) ∧
        Regex.read? e = some (holding (Text.lower t.toList)) ∧
        ∀ r, (Store.Plan.regex .name e).selects r = true ↔
          '\n' ∉ storedName r ∧ Text.lower t.toList <:+: storedName r) ∧
      ∃ p, (Cluster.Dsl.ofClause ⟨occur, none, .term t⟩).HasNamePart (.wildcard .name p) ∧
        Cluster.piecesOf p.toList = holding (Text.lower t.toList) ∧
        ∀ a r, (Cluster.Dsl.wildcard .name p).selects a r = true ↔
          Text.lower t.toList <:+: storedName r := by
  have hline : '\n' ∉ t.toList := (expressible_of_parse h _ hc).notMem_line_feed (.inl rfl)
  constructor
  · refine ⟨_, Store.Plan.hasNamePart_free t, Regex.read?_escapeRegex_between _, ?_⟩
    exact fun _ => Store.Plan.selects_nameWith_iff_infix hline
  · refine ⟨_, Cluster.Dsl.hasNamePart_free t, ?_, ?_⟩
    · rw [String.toList_ofList, Cluster.lower_escapePattern_between,
        Cluster.piecesOf_escapePattern_between]
    · exact fun _ _ => Cluster.Dsl.selects_nameWith_iff_infix t.toList

/-- A dot, a backslash and a bracket are sought as they are. -/
theorem free_word_of_operators_sought_in_names :
    let c : Clause := ⟨.mustNot, none, .term "A.\\["⟩
    let r : Resource := { (default : Resource) with
      document := { Document.empty with name := "xa.\\[Y" } }
    parse "report -A.\\[" = .ok ⟨[⟨.must, none, .term "report"⟩, c]⟩ ∧
      (∃ e, (Store.Plan.ofClause c).HasNamePart (.regex .name e) ∧
        (Store.Plan.regex .name e).selects r = true) ∧
      ∃ p, (Cluster.Dsl.ofClause c).HasNamePart (.wildcard .name p) ∧
        ∀ a, (Cluster.Dsl.wildcard .name p).selects a r = true := by
  intro c r
  have hparse : parse "report -A.\\[" = .ok ⟨[⟨.must, none, .term "report"⟩, c]⟩ := rfl
  have hplain : '\n' ∉ storedName r := by decide +kernel
  have hword : Text.lower "A.\\[".toList <:+: storedName r := ⟨['x'], ['y'], by decide +kernel⟩
  obtain ⟨⟨e, he, -, hstore⟩, p, hp, -, hcluster⟩ :=
    free_word_sought_in_names hparse (List.mem_cons_of_mem _ List.mem_cons_self)
  exact ⟨hparse, ⟨e, he, (hstore r).mpr ⟨hplain, hword⟩⟩, p, hp, fun a => (hcluster a r).mpr hword⟩

end Query

end ResourceIndex
