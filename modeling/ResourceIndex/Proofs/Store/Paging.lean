import ResourceIndex.Proofs.Store.Search
/-
Pages of results. The page is cut from the hits of the whole space, and only then are those
elsewhere dropped; so the total counts the results of the page and all hits beyond it. It is the
number of documents that are sought exactly if no hit beyond the page lies elsewhere.
-/
namespace ResourceIndex

/-- How many of `n` hits are taken for a request. -/
def SearchRequest.atMost (request : SearchRequest) (n : Nat) : Nat :=
  if request.pageSize < 0 then n
  else min n (if request.pageSize = 0 then 200 else request.pageSize.toNat)

namespace Store

variable {s : Store} {plan : Plan} {request : SearchRequest} {ranked sought : List Resource}
  {d : Resource} {response : SearchResponse}

/-- The hits that are left out of the page. -/
def beyond (s : Store) (request : SearchRequest) (ranked : List Resource) : List Resource :=
  ranked.drop (s.pageLimit (request.resolvedPageSize none))

theorem page_append_beyond (s : Store) (request : SearchRequest) (ranked : List Resource) :
    s.page request ranked ++ s.beyond request ranked = ranked := List.take_append_drop _ ranked

theorem length_page (h : s.Ranking plan request ranked) (hs : s.IdsUnique) :
    (s.page request ranked).length = request.atMost ranked.length := by
  have hlength := h.length_le hs
  rw [page, List.length_take, SearchRequest.resolvedPageSize, SearchRequest.atMost]
  by_cases hneg : request.pageSize < 0
  · rw [if_pos hneg, if_pos hneg]
    simp only [pageLimit]
    omega
  · rw [if_neg hneg, if_neg hneg]
    by_cases hzero : request.pageSize = 0
    · rw [if_pos hzero, if_pos hzero]
      simp only [pageLimit, SearchRequest.defaultPageSize]
      omega
    · rw [if_neg hzero, if_neg hzero]
      simp only [pageLimit]
      omega

theorem mem_beyond_iff (h : ranked.Nodup) :
    d ∈ s.beyond request ranked ↔ d ∈ ranked ∧ d ∉ s.page request ranked := by
  have happend := page_append_beyond s request ranked
  have hmem : d ∈ ranked ↔ d ∈ s.page request ranked ∨ d ∈ s.beyond request ranked := by
    rw [← List.mem_append, happend]
  rw [← happend, List.nodup_append] at h
  obtain ⟨-, -, hdisjoint⟩ := h
  rw [hmem]
  constructor
  · exact fun hd => ⟨.inr hd, fun hpage => hdisjoint d hpage d hd rfl⟩
  · rintro ⟨hpage | hbeyond, hnot⟩
    · exact absurd hpage hnot
    · exact hbeyond

theorem InScope.of_root (hroot : ∀ r, request.reference = some r →
    Path.normalize r.path = Path.root) (hd : Path.normalize d.path = d.path) :
    InScope request d := by
  rw [← acceptsPath_iff hd, SearchRequest.acceptsPath]
  cases hr : request.reference with
  | none => rfl
  | some r => simp only [hroot r hr, Path.isWithin_root]

/-- The answer to a request of any page size, for hits that are ranked in some order. -/
structure Paged (s : Store) (request : SearchRequest) (ranked sought : List Resource)
    (response : SearchResponse) : Prop where
  size : (s.page request ranked).length = request.atMost ranked.length
  shows : ∃ shown : List Resource, List.Forall₂ Match.Shows response.found shown ∧ shown.Nodup ∧
    ∀ d, d ∈ shown ↔ d ∈ s.page request ranked ∧ InScope request d
  /-- All hits beyond the page are counted, wherever they lie. -/
  total : response.total = response.found.length + (s.beyond request ranked).length
  total_ge : (sought.length : Int) ≤ response.total
  total_eq_iff : response.total = sought.length ↔
    ∀ d ∈ ranked, d ∉ s.page request ranked → InScope request d
  /-- Without a bound, or without hits elsewhere, the page size does not show in the total. -/
  exact : (request.pageSize < 0 ∨ (∀ d ∈ ranked, InScope request d) ∨
      ∀ r, request.reference = some r → Path.normalize r.path = Path.root) →
    response.total = sought.length ∧ response.found.length = request.atMost sought.length

section

variable (hs : s.WellFormed) (h : s.Ranking plan request ranked)
  (hsought : s.Sought plan request sought) (ha : s.Answered request ranked response)

include hs h in
theorem acceptsPath_iff_of_ranked (hd : d ∈ ranked) :
    request.acceptsPath d.path = true ↔ InScope request d :=
  acceptsPath_iff (hs.paths d ((h.mem_iff d).mp hd).stored)

include ha in
theorem total_eq_found_add_beyond :
    response.total = response.found.length + (s.beyond request ranked).length := by
  have hlength := congrArg List.length (page_append_beyond s request ranked)
  rw [List.length_append] at hlength
  rw [ha.total]
  omega

include hs h hsought ha in
theorem length_sought : sought.length = response.found.length +
    ((s.beyond request ranked).filter fun d => request.acceptsPath d.path).length := by
  rw [hsought.length_eq (h.sought_filter hs), ha.shows.length_eq, ← List.length_append,
    ← List.filter_append, page_append_beyond]

include hs h hsought ha in
theorem total_eq_length_sought_iff : response.total = sought.length ↔
    ∀ d ∈ ranked, d ∉ s.page request ranked → InScope request d := by
  have htotal := total_eq_found_add_beyond ha
  have hcount := length_sought hs h hsought ha
  have hall : response.total = sought.length ↔
      ((s.beyond request ranked).filter fun d => request.acceptsPath d.path).length =
        (s.beyond request ranked).length := by omega
  rw [hall, List.length_filter_eq_length_iff]
  constructor
  · intro hin d hd hnot
    exact (acceptsPath_iff_of_ranked hs h hd).mp (hin d ((mem_beyond_iff h.nodup).mpr ⟨hd, hnot⟩))
  · intro hin d hd
    obtain ⟨hranked, hnot⟩ := (mem_beyond_iff h.nodup).mp hd
    exact (acceptsPath_iff_of_ranked hs h hranked).mpr (hin d hranked hnot)

include hs h ha in
theorem shows_page_inScope : ∃ shown : List Resource,
    List.Forall₂ Match.Shows response.found shown ∧ shown.Nodup ∧
      ∀ d, d ∈ shown ↔ d ∈ s.page request ranked ∧ InScope request d := by
  refine ⟨_, ha.shows, (h.nodup.sublist (List.take_sublist _ _)).filter _, ?_⟩
  intro d
  rw [List.mem_filter]
  exact and_congr_right fun hd => acceptsPath_iff_of_ranked hs h (List.mem_of_mem_take hd)

include hs h hsought ha in
theorem exact_of_unbounded (hsize : request.pageSize < 0) :
    response.total = sought.length ∧ response.found.length = request.atMost sought.length := by
  have hpage := page_of_unbounded h hs.ids hsize
  have hexact : response.total = sought.length := by
    apply (total_eq_length_sought_iff hs h hsought ha).mpr
    intro d hd hnot
    rw [hpage] at hnot
    exact absurd hd hnot
  have htotal : response.total = response.found.length := by
    rw [ha.total, hpage]
    omega
  refine ⟨hexact, ?_⟩
  rw [SearchRequest.atMost, if_pos hsize]
  omega

include hs h hsought ha in
theorem exact_of_inScope (hin : ∀ d ∈ ranked, InScope request d) :
    response.total = sought.length ∧ response.found.length = request.atMost sought.length := by
  have hexact : response.total = sought.length :=
    (total_eq_length_sought_iff hs h hsought ha).mpr fun d hd _ => hin d hd
  have hfound : response.found.length = (s.page request ranked).length := by
    rw [ha.shows.length_eq, List.length_filter_eq_length_iff]
    intro d hd
    have hranked := List.mem_of_mem_take hd
    exact (acceptsPath_iff_of_ranked hs h hranked).mpr (hin d hranked)
  have hlength : sought.length = ranked.length := by
    have htotal := ha.total
    omega
  exact ⟨hexact, by rw [hfound, length_page h hs.ids, hlength]⟩

include hs h hsought ha in
theorem paged_of_answered : s.Paged request ranked sought response where
  size := length_page h hs.ids
  shows := shows_page_inScope hs h ha
  total := total_eq_found_add_beyond ha
  total_ge := by
    have htotal := total_eq_found_add_beyond ha
    have hcount := length_sought hs h hsought ha
    have hle := List.length_filter_le (fun d : Resource => request.acceptsPath d.path)
      (s.beyond request ranked)
    omega
  total_eq_iff := total_eq_length_sought_iff hs h hsought ha
  exact := by
    rintro (hsize | hin | hroot)
    · exact exact_of_unbounded hs h hsought ha hsize
    · exact exact_of_inScope hs h hsought ha hin
    · apply exact_of_inScope hs h hsought ha
      intro d hd
      exact .of_root hroot (hs.paths d ((h.mem_iff d).mp hd).stored)

end

/-- However the hits of a search are ranked, its page is cut from all of them, and the total counts
what the page shows and every hit beyond it. A search fails only if an expression of its query is
refused. -/
theorem paged_search_exact [RegexBuilder] (hs : s.Reachable)
    (hids : ∀ d ∈ s.docs, d.HasReadableIds) {q : Query}
    (hq : Query.parse request.query = .ok q) :
    (¬ Plan.Compiles q →
      ∃ reason, (engine.search request).run s = (.error (.store reason), s)) ∧
    (Plan.Compiles q → ∃ sought, s.Sought (.ofQuery q) request sought ∧
      (∃ ranked, s.Ranking (.ofQuery q) request ranked ∧
        (engine.search request).run s = (s.answer request (.ofQuery q) ranked, s)) ∧
      ∀ ranked, s.Ranking (.ofQuery q) request ranked →
        ∃ response, s.answer request (.ofQuery q) ranked = .ok response ∧
          s.Paged request ranked sought response) := by
  constructor
  · intro hplan
    obtain ⟨reason, hsearch⟩ := search_of_not_compiles (s := s) hq hplan
    exact ⟨reason, by rw [run_search, hsearch]⟩
  intro hplan
  have hwf := hs.wellFormed
  have hrank := ranking_selectedFor hwf.ids (.ofQuery q) request
  have hsought := hrank.sought_filter hwf
  refine ⟨_, hsought, ⟨_, hrank, by rw [run_search, search_eq_answer hq hplan]⟩, ?_⟩
  intro ranked h
  obtain ⟨response, hanswer, ha⟩ := exists_answer hids h
  exact ⟨response, hanswer, paged_of_answered hwf h hsought ha⟩

/-- The page holds the first of three hits. Neither it nor the second is in the folder that is
searched, but only the first is taken off the total. -/
theorem paged_search_of_folder :
    let s : Store := ⟨[.bare "st$sp!1" "st$sp!sp" "./a/x", .bare "st$sp!2" "st$sp!sp" "./a/y",
      .bare "st$sp!3" "st$sp!sp" "./b/z"]⟩
    let request : SearchRequest := ⟨"", some ⟨⟨"st", "sp", "sp"⟩, "./b"⟩, 1⟩
    s.Reachable ∧ (∀ d ∈ s.docs, d.HasReadableIds) ∧ Query.parse request.query = .ok ⟨[]⟩ ∧
      ∃ sought response, s.Sought (.ofQuery ⟨[]⟩) request sought ∧ sought.length = 1 ∧
        s.answer request (.ofQuery ⟨[]⟩) s.docs = .ok response ∧ response.found = [] ∧
        response.total = 2 := by
  intro s request
  have hs : s.Reachable := ((Reachable.empty.put "st$sp!1" (.bare "" "st$sp!sp" "/a/x")).put
    "st$sp!2" (.bare "" "st$sp!sp" "/a/y")).put "st$sp!3" (.bare "" "st$sp!sp" "/b/z")
  have hids : ∀ d ∈ s.docs, d.HasReadableIds := by decide
  have hq : Query.parse request.query = .ok ⟨[]⟩ := by decide +kernel
  have hplan : Plan.Compiles ⟨[]⟩ := List.forall_mem_nil _
  obtain ⟨sought, hsought, -, hall⟩ := (paged_search_exact hs hids hq).2 hplan
  have hselected : s.selectedFor (.ofQuery ⟨[]⟩) request = s.docs := by decide +kernel
  have hrank : s.Ranking (.ofQuery ⟨[]⟩) request s.docs :=
    hselected ▸ ranking_selectedFor hs.wellFormed.ids _ request
  obtain ⟨response, hanswer, hpaged⟩ := hall s.docs hrank
  have hone : sought.length = 1 := by
    rw [hsought.length_eq (hrank.sought_filter hs.wellFormed)]
    decide +kernel
  have hfound : (s.answer request (.ofQuery ⟨[]⟩) s.docs).map (·.found.length) = .ok 0 := by
    decide +kernel
  rw [hanswer] at hfound
  have hnone : response.found = [] := List.length_eq_zero_iff.mp (Except.ok.inj hfound)
  refine ⟨hs, hids, hq, sought, response, hsought, hone, hanswer, hnone, ?_⟩
  rw [hpaged.total, hnone]
  decide +kernel

/-- The folder that is searched is empty, yet a page of one counts the two hits beyond it. -/
theorem paged_search_counts_hits_elsewhere :
    let s : Store := ⟨[.bare "st$sp!1" "st$sp!sp" "./a/x", .bare "st$sp!2" "st$sp!sp" "./a/y",
      .bare "st$sp!3" "st$sp!sp" "./b/z"]⟩
    let request (pageSize : Int) : SearchRequest := ⟨"", some ⟨⟨"st", "sp", "sp"⟩, "./c"⟩, pageSize⟩
    s.Reachable ∧ (∀ d ∈ s.docs, d.HasReadableIds) ∧
      (∀ pageSize, ∀ d ∈ s.docs, ¬ InScope (request pageSize) d) ∧
      ((engine.search (request 1)).run s).1.map (·.total) = .ok 2 ∧
      ((engine.search (request (-1))).run s).1.map (·.total) = .ok 0 := by
  intro s request
  have hs : s.Reachable := ((Reachable.empty.put "st$sp!1" (.bare "" "st$sp!sp" "/a/x")).put
    "st$sp!2" (.bare "" "st$sp!sp" "/a/y")).put "st$sp!3" (.bare "" "st$sp!sp" "/b/z")
  refine ⟨hs, by decide, ?_, ?_, ?_⟩
  · intro pageSize d hd hin
    have hpath : Path.isWithin d.path (Path.normalize "./c") = true :=
      (acceptsPath_iff (hs.wellFormed.paths d hd)).mpr hin
    have hnone : ∀ d ∈ s.docs, Path.isWithin d.path (Path.normalize "./c") = false := by
      decide +kernel
    rw [hnone d hd] at hpath
    exact Bool.false_ne_true hpath
  · rw [run_search]
    decide +kernel
  · rw [run_search]
    decide +kernel

end Store
end ResourceIndex
