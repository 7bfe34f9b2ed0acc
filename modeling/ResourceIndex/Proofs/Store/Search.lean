import ResourceIndex.Proofs.Query.Automaton
import ResourceIndex.Proofs.Search.Response
import ResourceIndex.Proofs.Store.Compiling
import ResourceIndex.Proofs.Store.Reachable
/-
What a search of a reachable store finds, if the expressions of its query are taken. The hits may be
ranked in any order; a search without a bound shows each live document that the query selects where
the request searches, and only these.
-/
namespace ResourceIndex.Store

variable {s : Store} {plan : Plan} {request : SearchRequest} {ranked sought : List Resource}
  {d : Resource} {response : SearchResponse}

/-- The document is one that the index counts as a hit: it is live, the query selects it, and it
is of the space of the request. -/
structure IsHit (s : Store) (plan : Plan) (request : SearchRequest) (d : Resource) : Prop where
  stored : d ∈ s.docs
  live : d.deleted = false
  selected : plan.selects d = true
  space : ∀ r, request.reference = some r → d.rootId = r.resourceId.text

/-- The document lies at the path that the request asks for, or below it. -/
def InScope (request : SearchRequest) (d : Resource) : Prop :=
  ∀ r, request.reference = some r → d.path = Path.normalize r.path ∨
    ∃ u, d.path.toList = (Path.normalize r.path).toList ++ '/' :: u

theorem acceptsPath_iff (hd : Path.normalize d.path = d.path) :
    request.acceptsPath d.path = true ↔ InScope request d := by
  rw [SearchRequest.acceptsPath, InScope]
  cases request.reference with
  | none => exact iff_of_true rfl fun r hr => nomatch hr
  | some r =>
    simp only [Option.some.injEq, forall_eq']
    exact Path.isWithin_iff hd (Path.normalize_normalize r.path)

/-- All hits, each once, in the order in which they are ranked. -/
structure Ranking (s : Store) (plan : Plan) (request : SearchRequest) (ranked : List Resource) :
    Prop where
  nodup : ranked.Nodup
  mem_iff : ∀ d, d ∈ ranked ↔ s.IsHit plan request d

def selectedFor (s : Store) (plan : Plan) (request : SearchRequest) : List Resource :=
  s.selected plan (request.reference.map fun r => r.resourceId.text)

theorem mem_selectedFor : d ∈ s.selectedFor plan request ↔ s.IsHit plan request d := by
  rw [selectedFor, selected, List.mem_filter, Bool.and_eq_true, Bool.and_eq_true,
    Bool.not_eq_true']
  constructor
  · rintro ⟨hd, ⟨hselected, hlive⟩, hspace⟩
    refine ⟨hd, hlive, hselected, ?_⟩
    intro r hr
    rw [hr] at hspace
    exact beq_iff_eq.mp hspace
  · rintro ⟨hd, hlive, hselected, hspace⟩
    refine ⟨hd, ⟨hselected, hlive⟩, ?_⟩
    cases hr : request.reference with
    | none => rfl
    | some r => exact beq_iff_eq.mpr (hspace r hr)

theorem ranking_selectedFor (hs : s.IdsUnique) (plan : Plan) (request : SearchRequest) :
    s.Ranking plan request (s.selectedFor plan request) :=
  ⟨hs.nodup.filter _, fun _ => mem_selectedFor⟩

theorem Ranking.perm (h : s.Ranking plan request ranked) {others : List Resource}
    (ho : s.Ranking plan request others) : ranked.Perm others :=
  (List.perm_ext_iff_of_nodup h.nodup ho.nodup).mpr fun d => (h.mem_iff d).trans (ho.mem_iff d).symm

theorem Ranking.length_le (h : s.Ranking plan request ranked) (hs : s.IdsUnique) :
    ranked.length ≤ s.docs.length := by
  rw [(h.perm (ranking_selectedFor hs plan request)).length_eq]
  exact List.length_filter_le _ _

/-- The documents that a request asks for, each once. -/
structure Sought (s : Store) (plan : Plan) (request : SearchRequest) (sought : List Resource) :
    Prop where
  nodup : sought.Nodup
  mem_iff : ∀ d, d ∈ sought ↔ s.IsHit plan request d ∧ InScope request d

theorem Ranking.sought_filter (h : s.Ranking plan request ranked) (hs : s.WellFormed) :
    s.Sought plan request (ranked.filter fun d => request.acceptsPath d.path) := by
  refine ⟨h.nodup.filter _, ?_⟩
  intro d
  rw [List.mem_filter, h.mem_iff]
  constructor
  · rintro ⟨hhit, hpath⟩
    exact ⟨hhit, (acceptsPath_iff (hs.paths d hhit.stored)).mp hpath⟩
  · rintro ⟨hhit, hscope⟩
    exact ⟨hhit, (acceptsPath_iff (hs.paths d hhit.stored)).mpr hscope⟩

theorem Sought.length_eq (h : s.Sought plan request sought) {others : List Resource}
    (ho : s.Sought plan request others) : sought.length = others.length :=
  ((List.perm_ext_iff_of_nodup h.nodup ho.nodup).mpr fun d =>
    (h.mem_iff d).trans (ho.mem_iff d).symm).length_eq

/-- The hits that are taken for a request. -/
def page (s : Store) (request : SearchRequest) (ranked : List Resource) : List Resource :=
  ranked.take (s.pageLimit (request.resolvedPageSize none))

/-- The answer for hits in the order of their rank. -/
def answer (s : Store) (request : SearchRequest) (plan : Plan) (ranked : List Resource) :
    Except IndexError SearchResponse :=
  SearchResponse.ofHits request ((s.page request ranked).map (hit (s.weights plan))) ranked.length

section

variable [RegexBuilder] {q : Query}

theorem search_eq_answer (hq : Query.parse request.query = .ok q) (hplan : Plan.Compiles q) :
    s.search request = s.answer request (.ofQuery q) (s.selectedFor (.ofQuery q) request) := by
  simp only [search, hq, Plan.compile_of_compiles hplan, answer, page, selectedFor]
  rfl

theorem search_of_not_compiles (hq : Query.parse request.query = .ok q)
    (hplan : ¬ Plan.Compiles q) : ∃ reason, s.search request = .error (.store reason) := by
  obtain ⟨-, -, reason, -, hcompile⟩ := Plan.exists_refused_of_not_compiles hplan
  refine ⟨reason, ?_⟩
  simp only [search, hq, hcompile]
  rfl

theorem run_search (s : Store) (request : SearchRequest) :
    (engine.search request).run s = (s.search request, s) := by
  simp only [engine]
  rw [Action.run_get_bind]
  cases s.search request with
  | ok response => rfl
  | error e => rfl

end

/-- What is answered for hits that are ranked in some order. -/
structure Answered (s : Store) (request : SearchRequest) (ranked : List Resource)
    (response : SearchResponse) : Prop where
  shows : List.Forall₂ Match.Shows response.found
    ((s.page request ranked).filter fun d => request.acceptsPath d.path)
  total : response.total =
    response.found.length + ((ranked.length : Int) - (s.page request ranked).length)

theorem answered_of_answer (h : s.answer request plan ranked = .ok response) :
    s.Answered request ranked response := by
  obtain ⟨hshow, htotal⟩ := SearchResponse.shows_of_ofHits h
  rw [List.map_map] at hshow
  rw [List.length_map] at htotal
  have hresources : (s.page request ranked).map ((·.resource) ∘ hit (s.weights plan)) =
      s.page request ranked := List.map_id _
  rw [hresources] at hshow
  exact ⟨hshow, htotal⟩

theorem exists_answer (hids : ∀ d ∈ s.docs, d.HasReadableIds) (h : s.Ranking plan request ranked) :
    ∃ response, s.answer request plan ranked = .ok response ∧
      s.Answered request ranked response := by
  have hhits : ∀ x ∈ (s.page request ranked).map (hit (s.weights plan)),
      x.resource.HasReadableIds := by
    intro x hx
    obtain ⟨d, hd, rfl⟩ := List.mem_map.mp hx
    exact hids d ((h.mem_iff d).mp (List.mem_of_mem_take hd)).stored
  obtain ⟨response, hanswer⟩ :=
    SearchResponse.exists_ofHits request hhits (ranked.length : Int)
  exact ⟨response, hanswer, answered_of_answer hanswer⟩

theorem page_of_unbounded (h : s.Ranking plan request ranked) (hs : s.IdsUnique)
    (hsize : request.pageSize < 0) : s.page request ranked = ranked := by
  rw [page, SearchRequest.resolvedPageSize, if_pos hsize]
  apply List.take_of_length_le
  have hlength := h.length_le hs
  simp only [pageLimit]
  omega

theorem run_liveCount [RegexBuilder] (s : Store) :
    engine.liveCount.run s = (.ok s.liveCount, s) := rfl

theorem length_selectedFor_matchAll {q : Query} (hq : q.isMatchAll = true)
    (hr : request.reference = none) :
    (s.selectedFor (.ofQuery q) request).length = s.liveCount := by
  have hall : Plan.ofQuery q = .all := by rw [Plan.ofQuery, if_pos hq]
  rw [selectedFor, selected, liveCount, List.countP_eq_length_filter, hall, hr]
  simp only [Plan.selects, Bool.true_and, Option.map_none, Bool.and_true]

/-- A search without a bound finds each live document that the query selects where the request
searches, once, and nothing else. It fails only if an expression of the query is refused, which is
never so for a query that selects everything. -/
theorem unbounded_search_exact [RegexBuilder] (hs : s.Reachable)
    (hids : ∀ d ∈ s.docs, d.HasReadableIds) {q : Query}
    (hq : Query.parse request.query = .ok q) (hsize : request.pageSize < 0) :
    (Plan.Compiles q → ∃ response, (engine.search request).run s = (.ok response, s) ∧
      (∃ shown, s.Sought (.ofQuery q) request shown ∧
        List.Forall₂ Match.Shows response.found shown) ∧
      response.total = response.found.length ∧
      (q.isMatchAll = true → request.reference = none →
        engine.liveCount.run s = (.ok response.found.length, s))) ∧
    (request.query = "" → q.isMatchAll = true) ∧ (q.isMatchAll = true → Plan.Compiles q) ∧
    (¬ Plan.Compiles q →
      ∃ reason, (engine.search request).run s = (.error (.store reason), s)) := by
  refine ⟨fun hplan => ?_, ?_, ?_, fun hplan => ?_⟩
  case refine_2 =>
    intro hempty
    rw [hempty] at hq
    cases hq
    rfl
  case refine_3 =>
    intro hall c hc
    rw [List.isEmpty_iff.mp hall] at hc
    exact absurd hc List.not_mem_nil
  case refine_4 =>
    obtain ⟨reason, hsearch⟩ := search_of_not_compiles (s := s) hq hplan
    exact ⟨reason, by rw [run_search, hsearch]⟩
  have hwf := hs.wellFormed
  have hrank := ranking_selectedFor hwf.ids (.ofQuery q) request
  obtain ⟨response, hanswer, hshow, htotal⟩ := exists_answer hids hrank
  rw [page_of_unbounded hrank hwf.ids hsize] at hshow htotal
  refine ⟨response, by rw [run_search, search_eq_answer hq hplan, hanswer],
    ⟨_, hrank.sought_filter hwf, hshow⟩, ?_, ?_⟩
  · omega
  · intro hall hr
    have hevery : (s.selectedFor (.ofQuery q) request).filter
        (fun d => request.acceptsPath d.path) = s.selectedFor (.ofQuery q) request := by
      apply List.filter_eq_self.mpr
      intro d hd
      rw [SearchRequest.acceptsPath, hr]
    rw [run_liveCount, hshow.length_eq, hevery, length_selectedFor_matchAll hall hr]

/-- Beside a live file of the folder there are a deleted one, a folder, one of a folder whose name
begins like the folder's, and one of another space. -/
theorem unbounded_search_of_folder :
    let s : Store := ⟨[.bare "st$sp!1" "st$sp!sp" "./a/x",
      ⟨"st$sp!2", "st$sp!sp", "./a/y", "", .file, true, false, .empty⟩,
      ⟨"st$sp!3", "st$sp!sp", "./a", "", .container, false, false, .empty⟩,
      .bare "st$sp!4" "st$sp!sp" "./ab/x", .bare "st$sq!5" "st$sq!sq" "./a/x"]⟩
    let request : SearchRequest := ⟨"type:file", some ⟨⟨"st", "sp", "sp"⟩, "/a/"⟩, -1⟩
    s.Reachable ∧ (∀ d ∈ s.docs, d.HasReadableIds) ∧ request.pageSize < 0 ∧
      ∃ response, (engine.search request).run s = (.ok response, s) ∧
        response.total = response.found.length ∧
        response.found.map (·.entity.id) = [⟨"st", "sp", "1"⟩] := by
  intro s request
  have hs : s.Reachable := ((((Reachable.empty.put "st$sp!1" (.bare "" "st$sp!sp" "/a/x")).put
    "st$sp!2" ⟨"", "st$sp!sp", "/a/y", "", .file, true, false, .empty⟩).put
    "st$sp!3" ⟨"", "st$sp!sp", "/a", "", .container, false, false, .empty⟩).put
    "st$sp!4" (.bare "" "st$sp!sp" "/ab/x")).put "st$sq!5" (.bare "" "st$sq!sq" "/a/x")
  have hids : ∀ d ∈ s.docs, d.HasReadableIds := by decide
  have hq : Query.parse request.query = .ok ⟨[⟨.must, some .kind, .kind .file⟩]⟩ := by
    decide +kernel
  have hsize : request.pageSize < 0 := by decide
  have hplan : Plan.Compiles ⟨[⟨.must, some .kind, .kind .file⟩]⟩ :=
    Plan.compiles_of_plain (List.forall_mem_singleton.mpr ⟨nofun, nofun⟩)
  obtain ⟨response, hrun, -, htotal, -⟩ := (unbounded_search_exact hs hids hq hsize).1 hplan
  refine ⟨hs, hids, hsize, response, hrun, htotal, ?_⟩
  have hfound : (s.search request).map (fun r => r.found.map (·.entity.id)) =
      .ok [⟨"st", "sp", "1"⟩] := by decide +kernel
  rw [run_search, Prod.mk.injEq] at hrun
  rw [hrun.1] at hfound
  exact Except.ok.inj hfound

/-- Names with an `a` and twenty characters behind it are sought with an automaton that is too
large, even where nothing is stored. -/
theorem search_fails_on_refused_pattern :
    let request : SearchRequest := ⟨"name:*a????????????????????", none, -1⟩
    Store.empty.Reachable ∧ (∀ d ∈ Store.empty.docs, d.HasReadableIds) ∧
      (∃ q, Query.parse request.query = .ok q) ∧ request.pageSize < 0 ∧
      ∃ reason, (engine.search request).run .empty = (.error (.store reason), .empty) := by
  intro request
  let q : Query := ⟨[⟨.must, some .name, .wildcard "*a????????????????????"⟩]⟩
  have hq : Query.parse request.query = .ok q := by decide +kernel
  have hread : Query.Regex.read? (Query.globRegex (Text.lower "*a????????????????????".toList)) =
      some (Query.Regex.lastBut 20 'a') := by decide +kernel
  have hplan : ¬ Plan.Compiles q := by
    intro h
    have hnone := h _ List.mem_cons_self
    rw [Plan.refusal?_name_wildcard, Query.Regex.refusal?_of_lastBut hread (by decide)
      (show 10000 < 2 ^ (20 + 1) by decide)] at hnone
    cases hnone
  obtain ⟨reason, hsearch⟩ := search_of_not_compiles (s := .empty) hq hplan
  refine ⟨.empty, fun _ hd => absurd hd List.not_mem_nil, ⟨q, hq⟩, by decide, reason, ?_⟩
  rw [run_search, hsearch]

end ResourceIndex.Store
