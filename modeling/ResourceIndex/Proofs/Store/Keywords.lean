import ResourceIndex.Proofs.Query.Written
import ResourceIndex.Proofs.Store.Queries
import ResourceIndex.Proofs.Text.FinalSigma
import ResourceIndex.Store.Search
/-
Keywords that are sought by one of their own values. The index lowers a value character by character
and a query lowers its word as a whole text, so a value is found by every word with the same lower
case, unless a capital sigma ends a word of the text that is sought.
-/
namespace ResourceIndex

namespace Query

variable {f : Field} {r : Resource} {v w : String}

/-- The values of a resource in a field that is compared as a whole, as they are. -/
def Field.textsOf : Field → Resource → List String
  | .name, r => [r.document.name]
  | .tags, r => r.document.tags.toList
  | .mimeType, r => [r.document.mimeType]
  | .title, _ | .content, _ | .kind, _ => []

theorem Field.valuesOf_eq_map (f : Field) (r : Resource) :
    f.valuesOf r = (f.textsOf r).map fun t => Text.lowerChars t.toList := by
  cases f with
  | name | tags | mimeType => rfl
  | title | content | kind => rfl

/-- A text that is one word of a query, and no pattern. -/
structure IsPlainWord (w : String) : Prop where
  ne_empty : w ≠ ""
  plain : ∀ c ∈ w.toList, Text.isBlank c = false ∧ c ≠ '"' ∧ c ≠ '*' ∧ c ≠ '?'

/-- Texts with the same lower case are words alike. -/
theorem IsPlainWord.of_lowerChars_eq (hv : IsPlainWord v)
    (h : Text.lowerChars w.toList = Text.lowerChars v.toList) : IsPlainWord w := by
  obtain ⟨hne, hplain⟩ := hv
  have hsign : ∀ x, Text.IsSign x → (x ∈ w.toList ↔ x ∈ v.toList) := by
    intro x hx
    rw [← Text.mem_lowerChars_iff hx, h, Text.mem_lowerChars_iff hx]
  have hblank : ∀ c ∈ w.toList, Text.isBlank c = false := by
    rw [← Text.forall_isBlank_lowerChars_iff, h, Text.forall_isBlank_lowerChars_iff]
    exact fun c hc => (hplain c hc).1
  constructor
  · rintro rfl
    exact hne (String.toList_eq_nil_iff.mp (Text.lowerChars_eq_nil_iff.mp h.symm))
  · intro c hc
    refine ⟨hblank c hc, ?_, ?_, ?_⟩
    · rintro rfl
      exact (hplain '"' ((hsign '"' (by decide)).mp hc)).2.1 rfl
    · rintro rfl
      exact (hplain '*' ((hsign '*' (by decide)).mp hc)).2.2.1 rfl
    · rintro rfl
      exact (hplain '?' ((hsign '?' (by decide)).mp hc)).2.2.2 rfl

theorem IsPlainWord.expressible (hw : IsPlainWord w) (hf : f ≠ .kind) :
    (⟨.must, some f, .term w⟩ : Clause).Expressible := by
  have hfield : some f ≠ some .kind := fun h => hf (Option.some.inj h)
  have hne : w.toList ≠ [] := fun h => hw.ne_empty (String.toList_eq_nil_iff.mp h)
  have hends : ∀ c ∈ w.toList, Token.endsWord c = false :=
    fun c hc => endsWord_eq_false_iff.mpr ⟨(hw.plain c hc).1, (hw.plain c hc).2.1⟩
  have hword := expressible_of_word .must hfield hne hends fun h => nomatch h
  have hpattern : isPattern w.toList = false := by
    rw [← Bool.not_eq_true, isPattern_iff]
    rintro ⟨c, hc, rfl | rfl⟩
    · exact (hw.plain '*' hc).2.2.1 rfl
    · exact (hw.plain '?' hc).2.2.2 rfl
  rwa [hpattern, Bool.and_false, if_neg Bool.false_ne_true, String.ofList_toList] at hword

/-- A name for each field. -/
def Field.commonName : Field → String
  | .name => "name"
  | .title => "title"
  | .content => "content"
  | .tags => "tag"
  | .mimeType => "mime"
  | .kind => "type"

/-- A word behind the name of a field and a colon is sought in the field. -/
theorem parse_named_word {label : String} (hlabel : Field.ofName? label.toList = some f)
    (hf : f ≠ .kind) (hw : IsPlainWord w) :
    parse (label ++ ":" ++ w) = .ok ⟨[⟨.must, some f, .term w⟩]⟩ := by
  let nameOf (g : Field) : String := if g = f then label else g.commonName
  have hnames : Names nameOf := by
    intro g
    change Field.ofName? (if g = f then label else g.commonName).toList = some g
    split
    · rename_i hg
      rw [hg, hlabel]
    · cases g with
      | name | title | content | tags | mimeType | kind => decide
  have htext : textOf nameOf [⟨.must, some f, .term w⟩] = label ++ ":" ++ w := by
    rw [← String.toList_inj, textOf, String.toList_ofList, List.map_singleton, Text.join,
      String.toList_append, String.toList_append, List.append_assoc]
    change (nameOf f).toList ++ ':' :: w.toList = _
    rw [show nameOf f = label from if_pos rfl]
    rfl
  rw [← htext]
  exact parse_textOf (List.forall_mem_singleton.mpr (hw.expressible hf)) hnames

end Query

namespace Store

open Query (Field)

variable {f : Field} {s : Store} {d : Resource} {v w : String}

theorem mem_selected_iff {plan : Plan} (hd : d ∈ s.docs) (hlive : d.deleted = false) :
    d ∈ s.selected plan none ↔ plan.selects d = true := by
  rw [selected, List.mem_filter, hlive, Bool.not_false, Bool.and_true, Bool.and_true]
  exact and_iff_right hd

/-- A query for one word in a keyword field selects what has the word in lower case for a value. -/
theorem selects_keyword_iff (hf : f.isKeyword = true) (hw : Query.IsPlainWord w) :
    (Plan.ofQuery ⟨[⟨.must, some f, .term w⟩]⟩).selects d = true ↔
      ∃ t ∈ f.textsOf d, Text.lowerChars t.toList = Text.lower w.toList := by
  have hkind : f ≠ .kind := by
    rintro rfl
    cases hf
  have hclause := Plan.selects_ofClause_iff (r := d) (hw.expressible hkind)
  rw [Plan.selects_ofQuery_iff (by rwa [List.forall_mem_singleton]),
    Query.Comparison.meets_singleton_iff, iff_true_left rfl, Query.Comparison.Has, if_pos hf,
    Query.Comparison.IsValue, Query.Field.valuesOf_eq_map, List.mem_map]

/-- A live resource is found by one of its names, media types or tags, and by every text with the
same lower case, if no capital sigma ends a word of that text, or another of its values has what
the sigma becomes. -/
theorem keyword_found_by_own_value_iff (hf : f.isKeyword = true) {label : String}
    (hlabel : Field.ofName? label.toList = some f) (hd : d ∈ s.docs) (hlive : d.deleted = false)
    (hv : v ∈ f.textsOf d) (hne : v ≠ "")
    (hplain : ∀ c ∈ v.toList, Text.isBlank c = false ∧ c ≠ '"' ∧ c ≠ '*' ∧ c ≠ '?')
    (hcase : Text.lowerChars w.toList = Text.lowerChars v.toList) :
    ∃ q, Query.parse (label ++ ":" ++ w) = .ok q ∧
      (d ∈ s.selected (.ofQuery q) none ↔ ¬ Text.HasFinalSigma w.toList ∨
        ∃ t ∈ f.textsOf d, t ≠ v ∧ Text.lowerChars t.toList = Text.lower w.toList) := by
  have hw : Query.IsPlainWord w := Query.IsPlainWord.of_lowerChars_eq ⟨hne, hplain⟩ hcase
  refine ⟨_, Query.parse_named_word hlabel (by rintro rfl; cases hf) hw, ?_⟩
  rw [mem_selected_iff hd hlive, selects_keyword_iff hf hw, ← Text.lower_eq_lowerChars_iff]
  constructor
  · rintro ⟨t, ht, hlower⟩
    by_cases htv : t = v
    · rw [htv, ← hcase] at hlower
      exact .inl hlower.symm
    · exact .inr ⟨t, ht, htv, hlower⟩
  · rintro (hlower | ⟨t, ht, -, hlower⟩)
    · exact ⟨v, hv, by rw [hlower, hcase]⟩
    · exact ⟨t, ht, hlower⟩

/-- Capital letters of two alphabets, one of which becomes two characters; the sigma is at the
start of a word. -/
theorem keyword_found_by_own_value_in_capitals :
    let tags : TagSet := ⟨["Σ.İx"], List.pairwise_singleton _ _⟩
    let content : Document := { Document.empty with tags := tags }
    let d : Resource := ⟨"st$sp!1", "st$sp!sp", "./1", "", .file, false, false, content⟩
    let s : Store := ⟨[d]⟩
    Field.ofName? "TAGS".toList = some .tags ∧ d ∈ s.docs ∧ d.deleted = false ∧
      "Σ.İx" ∈ Field.textsOf .tags d ∧ "Σ.İx" ≠ "" ∧
      (∀ c ∈ "Σ.İx".toList, Text.isBlank c = false ∧ c ≠ '"' ∧ c ≠ '*' ∧ c ≠ '?') ∧
      Text.lowerChars "σ.i̇X".toList = Text.lowerChars "Σ.İx".toList ∧
      ∃ q, Query.parse ("TAGS" ++ ":" ++ "σ.i̇X") = .ok q ∧
        d ∈ s.selected (.ofQuery q) none := by
  intro tags content d s
  have hlabel : Field.ofName? "TAGS".toList = some .tags := by decide
  have hd : d ∈ s.docs := List.mem_cons_self
  have hv : "Σ.İx" ∈ Field.textsOf .tags d := List.mem_cons_self
  have hne : "Σ.İx" ≠ "" := by decide
  have hplain : ∀ c ∈ "Σ.İx".toList, Text.isBlank c = false ∧ c ≠ '"' ∧ c ≠ '*' ∧ c ≠ '?' := by
    change ∀ c ∈ ['Σ', '.', 'İ', 'x'], _
    simp only [List.forall_mem_cons]
    exact ⟨by decide, by decide, by decide, by decide, List.forall_mem_nil _⟩
  have hcase : Text.lowerChars "σ.i̇X".toList = Text.lowerChars "Σ.İx".toList := by decide +kernel
  have hsigma : ¬ Text.HasFinalSigma "σ.i̇X".toList :=
    Text.lower_eq_lowerChars_iff.mp (by decide +kernel)
  obtain ⟨q, hq, hfound⟩ := keyword_found_by_own_value_iff rfl hlabel hd rfl hv hne hplain hcase
  exact ⟨hlabel, hd, rfl, hv, hne, hplain, hcase, q, hq, hfound.mpr (.inl hsigma)⟩

/-- The name of a live document that is not found by itself: the last sigma is indexed as one within
a word, and sought as one at the end. -/
theorem keyword_with_final_sigma_not_found :
    let content : Document := { Document.empty with name := "ΟΔΟΣ" }
    let d : Resource := ⟨"st$sp!1", "st$sp!sp", "./x", "", .file, false, false, content⟩
    let s : Store := ⟨[d]⟩
    d ∈ s.docs ∧ d.deleted = false ∧ d.document.name = "ΟΔΟΣ" ∧
      ∃ q, Query.parse "name:ΟΔΟΣ" = .ok q ∧ s.selected (.ofQuery q) none = [] := by
  intro content d s
  exact ⟨List.mem_cons_self, rfl, rfl, ⟨[⟨.must, some .name, .term "ΟΔΟΣ"⟩]⟩, rfl,
    by decide +kernel⟩

end Store
end ResourceIndex
