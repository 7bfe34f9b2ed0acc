import ResourceIndex.Proofs.Cluster.Queries
import ResourceIndex.Proofs.Store.Queries
/-
One query in both indexes. Each takes a parsed query as the conjunction of its clauses. What a
keyword clause selects is the same in both, but for patterns in which a backslash stands before
another character, and for values that have a line feed.
-/
namespace ResourceIndex.Query

variable {q : Query} {c : Clause} {f : Field} {r : Resource} {a : Cluster.Analyzer}

/-- Both indexes select what meets the query, whatever text it is parsed from. -/
theorem parsed_query_decided {text : String} (h : parse text = .ok q) :
    Store.comparison.Decides (fun q r => (Store.Plan.ofQuery q).selects r) q ∧
      ∀ a, (Cluster.comparison a).Decides (fun q r => (Cluster.Dsl.ofQuery q).selects a r) q := by
  have hq : ∀ c ∈ q.clauses, c.Expressible := expressible_of_parse h
  constructor
  · refine Comparison.decides_of_meets ?_ hq
    intro q hq r
    exact Store.Plan.selects_ofQuery_iff fun c hc => Store.Plan.selects_ofClause_iff (hq c hc)
  · intro a
    refine Comparison.decides_of_meets ?_ hq
    intro q hq r
    exact Cluster.Dsl.selects_ofQuery_iff fun c hc => Cluster.Dsl.selects_ofClause_iff (hq c hc)

/-- Neither folders nor drafts. -/
theorem negative_query_decided :
    let q : Query := ⟨[⟨.mustNot, some .kind, .kind .container⟩, ⟨.mustNot, none, .term "Draft"⟩]⟩
    parse "-type:folder NOT Draft" = .ok q ∧ q.isPurelyNegative = true ∧
      Store.comparison.Decides (fun q r => (Store.Plan.ofQuery q).selects r) q ∧
      ∀ a, (Cluster.comparison a).Decides (fun q r => (Cluster.Dsl.ofQuery q).selects a r) q := by
  intro q
  have hparse : parse "-type:folder NOT Draft" = .ok q := rfl
  exact ⟨hparse, rfl, parsed_query_decided hparse⟩

/-- No pattern of the clause has a backslash before another character. -/
def Clause.AvoidsEscapes (c : Clause) : Prop :=
  ∀ s, c.value = .wildcard s → '\\' ∉ s.toList.dropLast

/-- The clause is a pattern that stands for values of the field, each with a line feed. -/
def Clause.MeetsLineFeeds (c : Clause) (f : Field) (r : Resource) : Prop :=
  ∃ s, c.value = .wildcard s ∧ (∃ v ∈ f.valuesOf r, globFits (Text.lower s.toList) v = true) ∧
    ∀ v ∈ f.valuesOf r, globFits (Text.lower s.toList) v = true → '\n' ∈ v

theorem not_avoidsEscapes_iff :
    ¬ c.AvoidsEscapes ↔ ∃ s, c.value = .wildcard s ∧ '\\' ∈ s.toList.dropLast := by
  simp only [Clause.AvoidsEscapes, not_forall, not_not, exists_prop]

theorem exists_valuesOf_eq (hf : f.isKeyword = true) (t : List Char) :
    ∃ r : Resource, f.valuesOf r = [Text.lowerChars t] := by
  let s := String.ofList t
  have hs : s.toList = t := String.toList_ofList
  cases f with
  | name =>
    refine ⟨{ (default : Resource) with document := { Document.empty with name := s } }, ?_⟩
    rw [← hs]
    rfl
  | tags =>
    refine ⟨{ (default : Resource) with document :=
      { Document.empty with tags := ⟨[s], List.pairwise_singleton _ s⟩ } }, ?_⟩
    rw [← hs]
    rfl
  | mimeType =>
    refine ⟨{ (default : Resource) with document := { Document.empty with mimeType := s } }, ?_⟩
    rw [← hs]
    rfl
  | title | content | kind => cases hf

/-- Whatever is no pattern means the same in both indexes. -/
theorem has_iff_of_ne_wildcard (h : c.Expressible) (hfield : c.field = some f)
    (hf : f.isKeyword = true ∨ f = .kind) (hw : ∀ s, c.value ≠ .wildcard s) :
    Store.comparison.Has r (some f) c.value ↔ (Cluster.comparison a).Has r (some f) c.value := by
  cases hv : c.value with
  | wildcard s => exact absurd hv (hw s)
  | kind k => rfl
  | term s | phrase s =>
    have hkeyword : f.isKeyword = true := by
      rcases hf with hf | rfl
      · exact hf
      · obtain ⟨k, hk⟩ := h.kind_iff.mp hfield
        rw [hv] at hk
        cases hk
    rw [Comparison.Has, Comparison.Has, if_pos hkeyword, if_pos hkeyword]

/-- Where no backslash is taken for an escape, a pattern finds less in the store only. -/
theorem fitsValue_iff_fitsValue_iff {s : String} (hs : '\\' ∉ s.toList.dropLast) :
    (Store.comparison.FitsValue f s r ↔ (Cluster.comparison a).FitsValue f s r) ↔
      ¬ ((∃ v ∈ f.valuesOf r, globFits (Text.lower s.toList) v = true) ∧
        ∀ v ∈ f.valuesOf r, globFits (Text.lower s.toList) v = true → '\n' ∈ v) := by
  have hlower : '\\' ∉ (Text.lower s.toList).dropLast :=
    fun h => hs ((Text.mem_dropLast_lower_iff (by decide)).mp h)
  have hcluster : (Cluster.comparison a).FitsValue f s r ↔
      ∃ v ∈ f.valuesOf r, globFits (Text.lower s.toList) v = true := by
    simp only [Comparison.FitsValue, Cluster.comparison, Cluster.wildcardFits_iff_globFits hlower]
  rw [hcluster]
  constructor
  · rintro h ⟨hfound, hline⟩
    obtain ⟨v, hv, hplain, hfits⟩ := h.mpr hfound
    exact hplain (hline v hv hfits)
  · intro h
    constructor
    · rintro ⟨v, hv, -, hfits⟩
      exact ⟨v, hv, hfits⟩
    · intro hfound
      by_contra hnone
      refine h ⟨hfound, ?_⟩
      intro v hv hfits
      by_contra hplain
      exact hnone ⟨v, hv, hplain, hfits⟩

/-- Where a backslash is taken for an escape, the cluster finds a value that is not meant. -/
theorem exists_fitsValue_only (hf : f.isKeyword = true) {s : String} (hline : '\n' ∉ s.toList)
    (hs : '\\' ∈ s.toList.dropLast) (a : Cluster.Analyzer) :
    ∃ r, (∀ v ∈ f.valuesOf r, '\n' ∉ v) ∧ ¬ Store.comparison.FitsValue f s r ∧
      (Cluster.comparison a).FitsValue f s r := by
  obtain ⟨t, hsigns, hfits, hnot⟩ := Cluster.exists_wildcardFits_only hs
  obtain ⟨r, hr⟩ := exists_valuesOf_eq hf t
  refine ⟨r, ?_, ?_, ?_⟩
  · rw [hr, List.forall_mem_singleton]
    intro hlower
    exact hline (hsigns '\n' (by decide) ((Text.mem_lowerChars_iff (by decide)).mp hlower))
  · rintro ⟨v, hv, -, hglob⟩
    rw [hr, List.mem_singleton] at hv
    rw [hv, hnot] at hglob
    cases hglob
  · refine ⟨Text.lowerChars t, ?_, hfits⟩
    rw [hr]
    exact List.mem_singleton_self _

/-- A clause for a keyword field or a kind selects the same resources in both indexes, unless it is
a pattern with a backslash before another character, which the cluster takes for an escape, or one
whose values are hidden from the store by line feeds. -/
theorem keyword_clause_agrees_iff {text : String} (h : parse text = .ok q) (hc : c ∈ q.clauses)
    (hfield : c.field = some f) (hf : f.isKeyword = true ∨ f = .kind) (a : Cluster.Analyzer) :
    (c.AvoidsEscapes → ∀ r,
        ((Store.Plan.ofClause c).selects r = (Cluster.Dsl.ofClause c).selects a r ↔
          ¬ c.MeetsLineFeeds f r)) ∧
      (¬ c.AvoidsEscapes → ∃ r, (∀ v ∈ f.valuesOf r, '\n' ∉ v) ∧
        (Store.Plan.ofClause c).selects r = false ∧
        (Cluster.Dsl.ofClause c).selects a r = true) := by
  have hshape : c.Expressible := expressible_of_parse h c hc
  have hstore : ∀ r, (Store.Plan.ofClause c).selects r = true ↔
      Store.comparison.Has r (some f) c.value :=
    fun r => hfield ▸ Store.Plan.selects_ofClause_iff hshape
  have hcluster : ∀ r, (Cluster.Dsl.ofClause c).selects a r = true ↔
      (Cluster.comparison a).Has r (some f) c.value :=
    fun r => hfield ▸ Cluster.Dsl.selects_ofClause_iff hshape
  constructor
  · intro havoids r
    rw [Bool.eq_iff_iff, hstore, hcluster]
    by_cases hw : ∃ s, c.value = .wildcard s
    · obtain ⟨s, hv⟩ := hw
      rw [Clause.MeetsLineFeeds, hv]
      refine (fitsValue_iff_fitsValue_iff (havoids s hv)).trans (not_congr ?_)
      simp only [Value.wildcard.injEq, exists_eq_left']
    · have hnone : ∀ s, c.value ≠ .wildcard s := fun s hs => hw ⟨s, hs⟩
      refine iff_of_true (has_iff_of_ne_wildcard hshape hfield hf hnone) ?_
      rintro ⟨s, hs, -⟩
      exact hnone s hs
  · intro hescapes
    obtain ⟨s, hv, hs⟩ := not_avoidsEscapes_iff.mp hescapes
    have hkeyword : f.isKeyword = true := by
      have htakes := (hshape.wildcard s hv).1
      rwa [hfield] at htakes
    obtain ⟨r, hplain, hnot, hfits⟩ :=
      exists_fitsValue_only hkeyword (hshape.notMem_line_feed (.inr hv)) hs a
    rw [hv] at hstore hcluster
    refine ⟨r, hplain, ?_, (hcluster r).mpr hfits⟩
    rw [← Bool.not_eq_true, hstore]
    exact hnot

theorem mime_pattern_agrees :
    let c : Clause := ⟨.mustNot, some .mimeType, .wildcard "Text/*\\"⟩
    let a : Cluster.Analyzer := ⟨fun _ t => [t]⟩
    let r : Resource := { (default : Resource) with
      document := { Document.empty with mimeType := "text/x\\" } }
    parse "report -mime:Text/*\\" = .ok ⟨[⟨.must, none, .term "report"⟩, c]⟩ ∧ c.AvoidsEscapes ∧
      (Store.Plan.ofClause c).selects r = true ∧
      ((Store.Plan.ofClause c).selects r = (Cluster.Dsl.ofClause c).selects a r ↔
        ¬ c.MeetsLineFeeds .mimeType r) := by
  intro c a r
  have hparse : parse "report -mime:Text/*\\" = .ok ⟨[⟨.must, none, .term "report"⟩, c]⟩ := rfl
  have havoids : c.AvoidsEscapes := by
    rintro s ⟨⟩
    decide
  refine ⟨hparse, havoids, by decide +kernel, ?_⟩
  exact (keyword_clause_agrees_iff hparse (List.mem_cons_of_mem _ List.mem_cons_self) rfl
    (.inl rfl) a).1 havoids r

/-- The cluster takes the backslash for an escape, and the store no line feed for a character. -/
theorem patterns_of_names_disagree :
    let escaped : Clause := ⟨.must, some .name, .wildcard "a\\*"⟩
    let plain : Clause := ⟨.must, some .name, .wildcard "a*b"⟩
    let a : Cluster.Analyzer := ⟨fun _ t => [t]⟩
    let named (s : String) : Resource :=
      { (default : Resource) with document := { Document.empty with name := s } }
    parse "name:a\\* name:a*b" = .ok ⟨[escaped, plain]⟩ ∧
      (Store.Plan.ofClause escaped).selects (named "a*") = false ∧
      (Cluster.Dsl.ofClause escaped).selects a (named "a*") = true ∧
      (Store.Plan.ofClause plain).selects (named "a\nb") = false ∧
      (Cluster.Dsl.ofClause plain).selects a (named "a\nb") = true := by
  intro escaped plain a named
  have hescaped : Cluster.wildcardFits ['a', '\\', '*'] ['a', '*'] = true :=
    Cluster.wildcardFits_literal ['a', '\\', '*']
  have hplain : Cluster.wildcardFits ['a', '*', 'b'] ['a', '\n', 'b'] = true :=
    (Cluster.wildcardFits_iff_globFits (by decide)).mpr (by simp [globFits])
  refine ⟨rfl, by decide +kernel, ?_, by decide +kernel, ?_⟩
  · exact (Cluster.Dsl.selects_pattern_iff .name "a\\*".toList).mpr
      ⟨['a', '*'], by decide +kernel, hescaped⟩
  · exact (Cluster.Dsl.selects_pattern_iff .name "a*b".toList).mpr
      ⟨['a', '\n', 'b'], by decide +kernel, hplain⟩

end ResourceIndex.Query
