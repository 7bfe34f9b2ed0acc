import ResourceIndex.Proofs.Query.Joined
import ResourceIndex.Proofs.Service.Faults
import ResourceIndex.Proofs.Store.Queries
/-
Searches for joined texts. The clauses of both texts have to be met, so a resource is returned for
the joined text if and only if it is returned for each of the two.
-/
namespace ResourceIndex

/-- The request with another query text. -/
def SearchRequest.asking (request : SearchRequest) (text : String) : SearchRequest :=
  { request with query := text }

namespace Store

variable {s : Store} {request : SearchRequest} {ranked shown : List Resource} {plan : Plan}
  {p q : Query} {d : Resource} {response : SearchResponse}

namespace Plan

variable {r : Resource}

theorem selects_ofQuery_iff_clauses : (ofQuery q).selects r = true ↔
    (∀ c ∈ q.clauses, c.occur = .must → (ofClause c).selects r = true) ∧
      ∀ c ∈ q.clauses, c.occur = .mustNot → ¬ (ofClause c).selects r = true := by
  rw [selects_ofQuery, Bool.and_eq_true, Bool.not_eq_true', ← Bool.not_eq_true,
    allSelect_signed_iff, someSelects_signed_iff]
  simp only [not_exists, not_and]

/-- The clauses of two queries together select what both select. -/
theorem selects_ofQuery_append (p q : Query) (r : Resource) :
    (ofQuery ⟨p.clauses ++ q.clauses⟩).selects r = true ↔
      (ofQuery p).selects r = true ∧ (ofQuery q).selects r = true := by
  simp only [selects_ofQuery_iff_clauses, List.forall_mem_append]
  exact and_and_and_comm

end Plan

theorem isHit_append_iff : s.IsHit (.ofQuery ⟨p.clauses ++ q.clauses⟩) request d ↔
    s.IsHit (.ofQuery p) request d ∧ s.IsHit (.ofQuery q) request d := by
  constructor
  · intro h
    obtain ⟨hp, hq⟩ := (Plan.selects_ofQuery_append p q d).mp h.selected
    exact ⟨⟨h.stored, h.live, hp, h.space⟩, ⟨h.stored, h.live, hq, h.space⟩⟩
  · rintro ⟨hp, hq⟩
    exact ⟨hp.stored, hp.live, (Plan.selects_ofQuery_append p q d).mpr ⟨hp.selected, hq.selected⟩,
      hp.space⟩

/-- Where is searched does not depend on the query text. -/
theorem isHit_asking_iff {text : String} :
    s.IsHit plan (request.asking text) d ↔ s.IsHit plan request d :=
  ⟨fun h => ⟨h.stored, h.live, h.selected, h.space⟩,
    fun h => ⟨h.stored, h.live, h.selected, h.space⟩⟩

/-- Whether a search is answered depends on the ids of what it is to show. -/
theorem exists_ok_answer_iff : (∃ response, s.answer request plan ranked = .ok response) ↔
    ∀ d ∈ s.page request ranked, request.acceptsPath d.path = true → d.HasReadableIds := by
  have hor : (∃ response, s.answer request plan ranked = .ok response) ↔
      ¬ ∃ e, s.answer request plan ranked = .error e := by
    cases s.answer request plan ranked with
    | ok response => exact iff_of_true ⟨response, rfl⟩ fun ⟨e, he⟩ => nomatch he
    | error e => exact iff_of_false (fun ⟨response, hr⟩ => nomatch hr) fun h => h ⟨e, rfl⟩
  rw [hor, exists_error_answer_iff]
  simp only [not_exists, not_and, not_not]

section

variable [RegexBuilder]

/-- The search is answered, and these documents, each once, are what the answer shows. -/
structure Returns (s : Store) (request : SearchRequest) (q : Query) (response : SearchResponse)
    (shown : List Resource) : Prop where
  run : (engine.search request).run s = (.ok response, s)
  sought : s.Sought (.ofQuery q) request shown
  shows : List.Forall₂ Match.Shows response.found shown
  total : response.total = shown.length

theorem run_search_eq_iff (hq : Query.parse request.query = .ok q) :
    (engine.search request).run s = (.ok response, s) ↔
      Plan.Compiles q ∧
        s.answer request (.ofQuery q) (s.selectedFor (.ofQuery q) request) = .ok response := by
  rw [run_search, Prod.mk.injEq, and_iff_left rfl]
  by_cases hplan : Plan.Compiles q
  · rw [search_eq_answer hq hplan, and_iff_right hplan]
  · obtain ⟨reason, hsearch⟩ := search_of_not_compiles (s := s) hq hplan
    rw [hsearch]
    exact iff_of_false nofun fun h => hplan h.1

theorem returns_of_answer (hs : s.WellFormed) (hq : Query.parse request.query = .ok q)
    (hsize : request.pageSize < 0) (hplan : Plan.Compiles q)
    (h : s.answer request (.ofQuery q) (s.selectedFor (.ofQuery q) request) = .ok response) :
    s.Returns request q response
      ((s.selectedFor (.ofQuery q) request).filter fun d => request.acceptsPath d.path) := by
  have hrank := ranking_selectedFor hs.ids (.ofQuery q) request
  obtain ⟨hshow, htotal⟩ := answered_of_answer h
  rw [page_of_unbounded hrank hs.ids hsize] at hshow htotal
  refine ⟨(run_search_eq_iff hq).mpr ⟨hplan, h⟩, hrank.sought_filter hs, hshow, ?_⟩
  rw [htotal, hshow.length_eq]
  omega

theorem exists_returns_of_run (hs : s.WellFormed) (request : SearchRequest)
    (hq : Query.parse request.query = .ok q) (hsize : request.pageSize < 0)
    (h : (engine.search request).run s = (.ok response, s)) :
    ∃ shown, s.Returns request q response shown := by
  obtain ⟨hplan, hanswer⟩ := (run_search_eq_iff hq).mp h
  exact ⟨_, returns_of_answer hs hq hsize hplan hanswer⟩

/-- A search without a bound is answered if and only if its query has a plan and all that is sought
can be shown. -/
theorem exists_run_iff (hs : s.WellFormed) (request : SearchRequest)
    (hq : Query.parse request.query = .ok q) (hsize : request.pageSize < 0) :
    (∃ response, (engine.search request).run s = (.ok response, s)) ↔ Plan.Compiles q ∧
      ∀ d, s.IsHit (.ofQuery q) request d → InScope request d → d.HasReadableIds := by
  have hrank := ranking_selectedFor hs.ids (.ofQuery q) request
  simp only [run_search_eq_iff hq, exists_and_left]
  refine and_congr_right fun _ => ?_
  rw [exists_ok_answer_iff, page_of_unbounded hrank hs.ids hsize]
  constructor
  · intro h d hd hscope
    exact h d ((hrank.mem_iff d).mpr hd) ((acceptsPath_iff (hs.paths d hd.stored)).mpr hscope)
  · intro h d hd hpath
    have hhit := (hrank.mem_iff d).mp hd
    exact h d hhit ((acceptsPath_iff (hs.paths d hhit.stored)).mp hpath)

/-- Two query texts with a blank between them ask for what both ask for: the clauses of the second
follow those of the first, and a search without a bound returns what is returned for both. Each of
the two is answered if all ids can be read and its own clauses have a plan. -/
theorem joined_text_asks_both {a b : String} {w : Char} (ha : Query.parse a = .ok p)
    (hb : Query.parse b = .ok q) (hw : Text.isBlank w = true) :
    let both := a ++ String.singleton w ++ b
    Query.parse both = .ok ⟨p.clauses ++ q.clauses⟩ ∧
      ∀ (s : Store) (request : SearchRequest), s.Reachable → request.pageSize < 0 →
        ((∀ d ∈ s.docs, d.HasReadableIds) → Plan.Compiles p → Plan.Compiles q →
          ∃ ra rb, (engine.search (request.asking a)).run s = (.ok ra, s) ∧
            (engine.search (request.asking b)).run s = (.ok rb, s)) ∧
        ∀ ra rb, (engine.search (request.asking a)).run s = (.ok ra, s) →
          (engine.search (request.asking b)).run s = (.ok rb, s) →
          ∃ r shownA shownB shown, s.Returns (request.asking a) p ra shownA ∧
            s.Returns (request.asking b) q rb shownB ∧
            s.Returns (request.asking both) ⟨p.clauses ++ q.clauses⟩ r shown ∧
            ∀ d, d ∈ shown ↔ d ∈ shownA ∧ d ∈ shownB := by
  intro both
  have hboth : Query.parse both = .ok ⟨p.clauses ++ q.clauses⟩ := by
    rw [Query.parse_append ha hw b, hb]
    rfl
  refine ⟨hboth, fun s request hs hsize => ?_⟩
  have hwf := hs.wellFormed
  have hiffA := exists_run_iff hwf (request.asking a) ha hsize
  have hiffB := exists_run_iff hwf (request.asking b) hb hsize
  have hiff := exists_run_iff hwf (request.asking both) hboth hsize
  constructor
  · intro hids hplanA hplanB
    obtain ⟨ra, hra⟩ := hiffA.mpr ⟨hplanA, fun d hd _ => hids d hd.stored⟩
    obtain ⟨rb, hrb⟩ := hiffB.mpr ⟨hplanB, fun d hd _ => hids d hd.stored⟩
    exact ⟨ra, rb, hra, hrb⟩
  · intro ra rb hra hrb
    -- What is sought for both is sought for the first, so it can be shown.
    obtain ⟨hplanA, hshowA⟩ := hiffA.mp ⟨ra, hra⟩
    obtain ⟨hplanB, -⟩ := hiffB.mp ⟨rb, hrb⟩
    obtain ⟨r, hr⟩ := hiff.mpr ⟨Plan.compiles_append_iff.mpr ⟨hplanA, hplanB⟩, fun d hd =>
      hshowA d (isHit_asking_iff.mpr (isHit_append_iff.mp (isHit_asking_iff.mp hd)).1)⟩
    obtain ⟨shownA, hA⟩ := exists_returns_of_run hwf (request.asking a) ha hsize hra
    obtain ⟨shownB, hB⟩ := exists_returns_of_run hwf (request.asking b) hb hsize hrb
    obtain ⟨shown, hreturns⟩ := exists_returns_of_run hwf (request.asking both) hboth hsize hr
    refine ⟨r, shownA, shownB, shown, hA, hB, hreturns, ?_⟩
    intro d
    rw [hA.sought.mem_iff, hB.sought.mem_iff, hreturns.sought.mem_iff]
    simp only [isHit_asking_iff, isHit_append_iff]
    exact and_and_right

end

/-- The hyphen at the end of the first text is a word of its own and no sign for the second. -/
theorem joined_text_asks_both_after_hyphen :
    let content (name : String) : Document := { Document.empty with name := name }
    let s : Store := ⟨[⟨"st$sp!1", "st$sp!sp", "./1", "", .file, false, false, content "a-b"⟩,
      ⟨"st$sp!2", "st$sp!sp", "./2", "", .file, false, false, content "draft-2"⟩,
      ⟨"st$sp!3", "st$sp!sp", "./3", "", .file, false, false, content "ab"⟩]⟩
    let request : SearchRequest := ⟨"", none, -1⟩
    let p : Query := ⟨[⟨.must, some .kind, .kind .file⟩, ⟨.must, none, .term "-"⟩]⟩
    let q : Query := ⟨[⟨.mustNot, none, .term "draft"⟩]⟩
    let both := "type:file -" ++ String.singleton '\u3000' ++ "NOT draft"
    Query.parse "type:file -" = .ok p ∧ Query.parse "NOT draft" = .ok q ∧
      Text.isBlank '\u3000' = true ∧ s.Reachable ∧ request.pageSize < 0 ∧
      Query.parse both = .ok ⟨p.clauses ++ q.clauses⟩ ∧
      ∃ ra rb r, (engine.search (request.asking "type:file -")).run s = (.ok ra, s) ∧
        (engine.search (request.asking "NOT draft")).run s = (.ok rb, s) ∧
        (engine.search (request.asking both)).run s = (.ok r, s) ∧
        ra.total = 2 ∧ rb.total = 2 ∧ r.found.map (·.entity.id) = [⟨"st", "sp", "1"⟩] := by
  intro content s request p q both
  have hs : s.Reachable :=
    ((Reachable.empty.put "st$sp!1" ⟨"", "st$sp!sp", "/1", "", .file, false, false,
      { Document.empty with name := "a-b" }⟩).put "st$sp!2" ⟨"", "st$sp!sp", "/2", "", .file,
      false, false, { Document.empty with name := "draft-2" }⟩).put "st$sp!3" ⟨"", "st$sp!sp",
      "/3", "", .file, false, false, { Document.empty with name := "ab" }⟩
  have hids : ∀ d ∈ s.docs, d.HasReadableIds := by decide
  have hp : Query.parse "type:file -" = .ok p := by decide +kernel
  have hq : Query.parse "NOT draft" = .ok q := by decide +kernel
  have hw : Text.isBlank '\u3000' = true := by decide
  have hsize : request.pageSize < 0 := by decide
  obtain ⟨hboth, hsearch⟩ := joined_text_asks_both hp hq hw
  obtain ⟨hreturned, hshared⟩ := hsearch s request hs hsize
  have hplan : Plan.Compiles p ∧ Plan.Compiles q := by decide +kernel
  obtain ⟨ra, rb, hra, hrb⟩ := hreturned hids hplan.1 hplan.2
  obtain ⟨r, shownA, shownB, shown, hA, hB, hr, -⟩ := hshared ra rb hra hrb
  have hrun := hr.run
  refine ⟨hp, hq, hw, hs, hsize, hboth, ra, rb, r, hra, hrb, hrun, ?_⟩
  have htotalA : (s.search (request.asking "type:file -")).map (·.total) = .ok 2 := by
    decide +kernel
  have htotalB : (s.search (request.asking "NOT draft")).map (·.total) = .ok 2 := by
    decide +kernel
  have hfound : (s.search (request.asking both)).map
      (fun r => r.found.map (·.entity.id)) = .ok [⟨"st", "sp", "1"⟩] := by decide +kernel
  rw [run_search, Prod.mk.injEq] at hra hrb hrun
  rw [hra.1] at htotalA
  rw [hrb.1] at htotalB
  rw [hrun.1] at hfound
  exact ⟨Except.ok.inj htotalA, Except.ok.inj htotalB, Except.ok.inj hfound⟩

end Store
end ResourceIndex
