import ResourceIndex.Proofs.Store.Search
import ResourceIndex.Service
/-
What makes a search a bad request. Besides a scope or a query that cannot be read these are ids in
what storage or the index hold: each of them is read on the way to a response, and an id that
cannot be read is told to the client in the same way wherever it comes from. A query with an
expression that is refused is no bad request.
-/
namespace ResourceIndex

theorem ServiceError.ofIndexError_eq_badRequest_iff {e x : IndexError} :
    ofIndexError e = .badRequest x ↔ e.isValidation = true ∧ e = x := by
  unfold ofIndexError
  split
  · simp_all
  · split <;> simp_all

namespace Match

variable {r : Resource} {score : Binary32} {highlights : String}

/-- A result cannot be made of a resource if and only if one of its ids cannot be read. -/
theorem exists_error_ofResource_iff :
    (∃ e, ofResource r score highlights = .error e) ↔ ¬ r.HasReadableIds := by
  constructor
  · rintro ⟨e, he⟩ hr
    obtain ⟨m, hm⟩ := exists_ofResource hr score highlights
    cases he.symm.trans hm
  · intro hr
    cases hroot : ResourceId.parse r.rootId with
    | error e => exact ⟨e, by rw [ofResource, hroot]; rfl⟩
    | ok rootId =>
      cases hid : ResourceId.parse r.id with
      | error e => exact ⟨e, by rw [ofResource, hroot, hid]; rfl⟩
      | ok id => exact absurd ⟨⟨id, hid⟩, ⟨rootId, hroot⟩⟩ hr

end Match

namespace SearchResponse

variable {request : SearchRequest} {hits : List Hit} {e : IndexError}

theorem isValidation_of_matchesOf (h : matchesOf request hits = .error e) :
    e.isValidation = true := by
  induction hits with
  | nil => cases h
  | cons x hits ih =>
    rw [matchesOf] at h
    split at h
    · split at h
      · cases h
        rfl
      · cases hrest : matchesOf request hits with
        | error e' =>
          rw [hrest] at h
          cases h
          exact ih hrest
        | ok found =>
          rw [hrest] at h
          cases h
    · exact ih h

theorem exists_error_matchesOf_iff : (∃ e, matchesOf request hits = .error e) ↔
    ∃ h ∈ hits, request.acceptsPath h.resource.path = true ∧ ¬ h.resource.HasReadableIds := by
  induction hits with
  | nil => simp [matchesOf]
  | cons x hits ih =>
    rw [matchesOf]
    simp only [List.mem_cons, exists_eq_or_imp]
    by_cases hin : request.acceptsPath x.resource.path = true
    · rw [if_pos hin]
      cases hx : Match.ofResource x.resource x.score x.highlights with
      | error e =>
        have hbad := Match.exists_error_ofResource_iff.mp ⟨e, hx⟩
        exact iff_of_true ⟨_, rfl⟩ (.inl ⟨hin, hbad⟩)
      | ok m =>
        have hgood : x.resource.HasReadableIds := by
          by_contra hbad
          obtain ⟨e, he⟩ := Match.exists_error_ofResource_iff.mpr hbad
          cases hx.symm.trans he
        have hrest : (∃ e, (matchesOf request hits).map (m :: ·) = .error e) ↔
            ∃ e, matchesOf request hits = .error e := by
          cases matchesOf request hits <;> simp [Except.map]
        rw [hrest, ih]
        simp [hgood]
    · rw [if_neg hin, ih]
      simp [hin]

theorem ofHits_eq_error_iff {total : Int} :
    ofHits request hits total = .error e ↔ matchesOf request hits = .error e := by
  unfold ofHits
  cases matchesOf request hits with
  | error e' =>
    constructor
    · intro h
      cases h
      rfl
    · intro h
      cases h
      rfl
  | ok found => exact iff_of_false nofun nofun

end SearchResponse

namespace Store

variable {s : Store} {request : SearchRequest} {ranked : List Resource} {plan : Plan}

theorem exists_error_answer_iff : (∃ e, s.answer request plan ranked = .error e) ↔
    ∃ d ∈ s.page request ranked, request.acceptsPath d.path = true ∧ ¬ d.HasReadableIds := by
  simp only [answer, SearchResponse.ofHits_eq_error_iff, SearchResponse.exists_error_matchesOf_iff,
    List.mem_map, exists_exists_and_eq_and, hit]

theorem isValidation_of_answer {e : IndexError} (h : s.answer request plan ranked = .error e) :
    e.isValidation = true :=
  SearchResponse.isValidation_of_matchesOf (SearchResponse.ofHits_eq_error_iff.mp h)

section

variable [RegexBuilder] {rank : Plan → SearchRequest → List Resource} {q : Query} {e : IndexError}

/-- The answer to a request when the hits of a query are ranked in some order. -/
def answerRanked (s : Store) (rank : Plan → SearchRequest → List Resource)
    (request : SearchRequest) : Except IndexError SearchResponse :=
  match Query.parse request.query with
  | .error e => .error (.ofFault e)
  | .ok q => do
    let plan ← Plan.compile q
    s.answer request plan (rank plan request)

theorem search_eq_answerRanked (s : Store) (request : SearchRequest) :
    s.search request = s.answerRanked s.selectedFor request := by
  cases hq : Query.parse request.query with
  | error e => simp only [search, answerRanked, hq]
  | ok q =>
    simp only [search, answerRanked, hq]
    rfl

theorem answerRanked_of_compiles (hq : Query.parse request.query = .ok q)
    (hplan : Plan.Compiles q) :
    s.answerRanked rank request = s.answer request (.ofQuery q) (rank (.ofQuery q) request) := by
  simp only [answerRanked, hq, Plan.compile_of_compiles hplan]
  rfl

theorem answerRanked_of_not_compiles (s : Store) (rank : Plan → SearchRequest → List Resource)
    (hq : Query.parse request.query = .ok q) (hplan : ¬ Plan.Compiles q) :
    ∃ reason, s.answerRanked rank request = .error (.store reason) := by
  obtain ⟨-, -, reason, -, hcompile⟩ := Plan.exists_refused_of_not_compiles hplan
  refine ⟨reason, ?_⟩
  simp only [answerRanked, hq, hcompile]
  rfl

/-- An answer is missing through the input for a query that cannot be read, or a hit that cannot be
shown. -/
theorem validation_answerRanked_iff :
    (∃ e, s.answerRanked rank request = .error e ∧ e.isValidation = true) ↔
      (∃ e, Query.parse request.query = .error e) ∨
        ∃ q, Query.parse request.query = .ok q ∧ Plan.Compiles q ∧
          ∃ d ∈ s.page request (rank (.ofQuery q) request),
            request.acceptsPath d.path = true ∧ ¬ d.HasReadableIds := by
  cases hq : Query.parse request.query with
  | error e =>
    have hanswer : s.answerRanked rank request = .error (.ofFault e) := by
      rw [answerRanked, hq]
    exact iff_of_true ⟨_, hanswer, rfl⟩ (.inl ⟨e, rfl⟩)
  | ok q =>
    simp only [reduceCtorEq, exists_false, false_or, Except.ok.injEq, exists_eq_left']
    by_cases hplan : Plan.Compiles q
    · rw [answerRanked_of_compiles hq hplan, ← exists_error_answer_iff]
      constructor
      · exact fun ⟨e, he, _⟩ => ⟨hplan, e, he⟩
      · exact fun ⟨_, e, he⟩ => ⟨e, he, isValidation_of_answer he⟩
    · obtain ⟨reason, hrefused⟩ := answerRanked_of_not_compiles s rank hq hplan
      rw [hrefused]
      refine iff_of_false ?_ fun h => hplan h.1
      rintro ⟨e, he, hvalid⟩
      cases he
      cases hvalid

/-- An answer is missing for another reason only if an expression of the query is refused. -/
theorem exists_refused_of_answerRanked (h : s.answerRanked rank request = .error e)
    (hvalid : e.isValidation = false) :
    ∃ q reason, Query.parse request.query = .ok q ∧ ¬ Plan.Compiles q ∧ e = .store reason := by
  cases hq : Query.parse request.query with
  | error x =>
    rw [answerRanked, hq] at h
    cases h
    cases hvalid
  | ok q =>
    by_cases hplan : Plan.Compiles q
    · rw [answerRanked_of_compiles hq hplan] at h
      exact absurd (isValidation_of_answer h) (by rw [hvalid]; exact Bool.false_ne_true)
    · obtain ⟨reason, hrefused⟩ := answerRanked_of_not_compiles s rank hq hplan
      cases hrefused.symm.trans h
      exact ⟨q, reason, rfl, hplan, rfl⟩

end

end Store

namespace SearchService

variable {storage : Storage} {cache : SearchCache} {now : Nat} {request effective : SearchRequest}
  {s : Store} {rank : Store.Plan → SearchRequest → List Resource}

/-- The scope that the request names cannot be read as an id. -/
def ScopeUnread (request : SearchRequest) : Prop :=
  ∃ scope e, (Query.extractScope request.query).2 = some scope ∧ ResourceId.parse scope = .error e

/-- Storage is asked for the resource that the scope names, and gives this answer. -/
def Stated (storage : Storage) (request : SearchRequest)
    (answer : Except IndexError (Option Resource)) : Prop :=
  ∃ scope id, (Query.extractScope request.query).2 = some scope ∧ ResourceId.parse scope = .ok id ∧
    storage.stat ⟨id, Path.root⟩ = answer

/-- What storage gives for the scope cannot be read, or storage says that it is asked wrongly. -/
def ProvidedUnread (storage : Storage) (request : SearchRequest) : Prop :=
  (∃ e, Stated storage request (.error e) ∧ e.isValidation = true) ∨
    ∃ r e, Stated storage request (.ok (some r)) ∧ ResourceId.parse r.rootId = .error e

/-- The index is asked for what the request is with its scope in the place of the reference. -/
structure Asks (storage : Storage) (now : Nat) (cache : SearchCache)
    (request effective : SearchRequest) : Prop where
  scope : withScope storage.resolver request = .ok effective
  miss : cache.fresh? now (SearchCache.keyOf effective) = none

/-- The query text without its scope cannot be read. -/
def QueryUnread (storage : Storage) (now : Nat) (cache : SearchCache) (request : SearchRequest) :
    Prop :=
  ∃ effective e, Asks storage now cache request effective ∧
    Query.parse (Query.extractScope request.query).1 = .error e

/-- The query can be read, but one of its expressions is refused. -/
def QueryRefused [RegexBuilder] (storage : Storage) (now : Nat) (cache : SearchCache)
    (request : SearchRequest) : Prop :=
  ∃ effective q, Asks storage now cache request effective ∧
    Query.parse effective.query = .ok q ∧ ¬ Store.Plan.Compiles q

/-- A hit that is to be shown has an id or a root id that cannot be read. -/
def StoredUnread [RegexBuilder] (storage : Storage) (now : Nat) (cache : SearchCache)
    (request : SearchRequest) (s : Store)
    (rank : Store.Plan → SearchRequest → List Resource) : Prop :=
  ∃ effective q, Asks storage now cache request effective ∧
    Query.parse effective.query = .ok q ∧ Store.Plan.Compiles q ∧
    ∃ d ∈ s.page effective (rank (.ofQuery q) effective),
      effective.acceptsPath d.path = true ∧ ¬ d.HasReadableIds

/-- The ways in which a scope is resolved by storage. -/
inductive Resolution (storage : Storage) (request : SearchRequest) :
    Except ServiceError SearchRequest → Prop
  | plain (hscope : (Query.extractScope request.query).2 = none) :
      Resolution storage request (.ok { request with query := (Query.extractScope request.query).1 })
  | unread {scope : String} {e : InvalidId}
      (hscope : (Query.extractScope request.query).2 = some scope)
      (hid : ResourceId.parse scope = .error e) :
      Resolution storage request (.error (.ofIndexError (.ofInvalidId e)))
  | failed {e : IndexError} (hstat : Stated storage request (.error e)) :
      Resolution storage request (.error (.ofIndexError e))
  | absent {scope : String} (hscope : (Query.extractScope request.query).2 = some scope)
      (hstat : Stated storage request (.ok none)) :
      Resolution storage request (.error (.missingScope scope))
  | rootUnread {r : Resource} {e : InvalidId} (hstat : Stated storage request (.ok (some r)))
      (hroot : ResourceId.parse r.rootId = .error e) :
      Resolution storage request (.error (.ofIndexError (.ofInvalidId e)))
  | placed {r : Resource} {root : ResourceId} (hstat : Stated storage request (.ok (some r)))
      (hroot : ResourceId.parse r.rootId = .ok root) :
      Resolution storage request
        (.ok ⟨(Query.extractScope request.query).1, some ⟨root, r.path⟩, request.pageSize⟩)

theorem resolution_withScope (storage : Storage) (request : SearchRequest) :
    Resolution storage request (withScope storage.resolver request) := by
  unfold withScope
  cases hscope : (Query.extractScope request.query).2 with
  | none =>
    simp only [hscope]
    exact .plain hscope
  | some scope =>
    simp only [hscope]
    cases hid : ResourceId.parse scope with
    | error e => exact .unread hscope hid
    | ok id =>
      have hstated : Stated storage request (storage.stat ⟨id, Path.root⟩) :=
        ⟨scope, id, hscope, hid, rfl⟩
      simp only [Storage.resolver]
      cases hstat : storage.stat ⟨id, Path.root⟩ with
      | error e => exact .failed (hstat ▸ hstated)
      | ok found =>
        cases found with
        | none => exact .absent hscope (hstat ▸ hstated)
        | some r =>
          dsimp only
          cases hroot : ResourceId.parse r.rootId with
          | error e => exact .rootUnread (hstat ▸ hstated) hroot
          | ok root => exact .placed (hstat ▸ hstated) hroot

theorem query_of_withScope (h : withScope storage.resolver request = .ok effective) :
    effective.query = (Query.extractScope request.query).1 := by
  have hres := resolution_withScope storage request
  rw [h] at hres
  cases hres with
  | plain => rfl
  | placed => rfl

theorem Stated.unique {a b : Except IndexError (Option Resource)} (ha : Stated storage request a)
    (hb : Stated storage request b) : a = b := by
  obtain ⟨scope, id, hscope, hid, rfl⟩ := ha
  obtain ⟨scope', id', hscope', hid', rfl⟩ := hb
  cases hscope.symm.trans hscope'
  cases hid.symm.trans hid'
  rfl

theorem Stated.scope_ne_none {a : Except IndexError (Option Resource)}
    (h : Stated storage request a) : (Query.extractScope request.query).2 ≠ none := by
  obtain ⟨scope, id, hscope, -⟩ := h
  rw [hscope]
  exact Option.some_ne_none scope

theorem Stated.not_scopeUnread {a : Except IndexError (Option Resource)}
    (h : Stated storage request a) : ¬ ScopeUnread request := by
  rintro ⟨scope, e, hscope, hid⟩
  obtain ⟨scope', id, hscope', hid', -⟩ := h
  cases hscope.symm.trans hscope'
  cases hid.symm.trans hid'

theorem ProvidedUnread.exists_stated (h : ProvidedUnread storage request) :
    ∃ answer, Stated storage request answer := by
  rcases h with ⟨e, hstat, -⟩ | ⟨r, e, hstat, -⟩
  · exact ⟨_, hstat⟩
  · exact ⟨_, hstat⟩

theorem exists_badRequest_withScope_iff :
    (∃ e, withScope storage.resolver request = .error (.badRequest e)) ↔
      ScopeUnread request ∨ ProvidedUnread storage request := by
  have hres := resolution_withScope storage request
  generalize withScope storage.resolver request = result at hres
  cases hres with
  | plain hscope =>
    refine iff_of_false nofun ?_
    rintro (⟨scope, e, hsome, -⟩ | hprovided)
    · cases hscope.symm.trans hsome
    · obtain ⟨answer, hstat⟩ := hprovided.exists_stated
      exact hstat.scope_ne_none hscope
  | @unread scope e hscope hid => exact iff_of_true ⟨_, rfl⟩ (.inl ⟨scope, e, hscope, hid⟩)
  | @failed e hstat =>
    simp only [Except.error.injEq, ServiceError.ofIndexError_eq_badRequest_iff]
    constructor
    · rintro ⟨x, hvalid, -⟩
      exact .inr (.inl ⟨e, hstat, hvalid⟩)
    · rintro (hscope | ⟨e', hstat', hvalid⟩ | ⟨r, e', hstat', -⟩)
      · exact absurd hscope hstat.not_scopeUnread
      · cases hstat.unique hstat'
        exact ⟨e, hvalid, rfl⟩
      · cases hstat.unique hstat'
  | absent hscope hstat =>
    refine iff_of_false nofun ?_
    rintro (hscope | ⟨e, hstat', -⟩ | ⟨r, e, hstat', -⟩)
    · exact hstat.not_scopeUnread hscope
    · cases hstat.unique hstat'
    · cases hstat.unique hstat'
  | @rootUnread r e hstat hroot => exact iff_of_true ⟨_, rfl⟩ (.inr (.inr ⟨r, e, hstat, hroot⟩))
  | placed hstat hroot =>
    refine iff_of_false nofun ?_
    rintro (hscope | ⟨e, hstat', -⟩ | ⟨r, e, hstat', hroot'⟩)
    · exact hstat.not_scopeUnread hscope
    · cases hstat.unique hstat'
    · cases hstat.unique hstat'
      cases hroot.symm.trans hroot'

variable {ask : SearchRequest → Action Store SearchResponse}

/-- Without a question to the index only the scope can be at fault. -/
theorem search_of_not_asks (h : ∀ effective, ¬ Asks storage now cache request effective)
    (e : ServiceError) :
    (search ask storage.resolver now cache request s).result = .error e ↔
      withScope storage.resolver request = .error e := by
  unfold search
  cases hscope : withScope storage.resolver request with
  | error e => simp
  | ok effective =>
    dsimp only
    cases hfresh : cache.fresh? now (SearchCache.keyOf effective) with
    | none => exact absurd ⟨hscope, hfresh⟩ (h effective)
    | some response => exact iff_of_false nofun nofun

/-- An error that is no bad request is what storage says of the scope. -/
theorem storage_error_of_withScope {e : ServiceError}
    (h : withScope storage.resolver request = .error e) : (∃ x, e = .badRequest x) ∨
      (∃ scope, e = .missingScope scope ∧ Stated storage request (.ok none)) ∨
      ∃ x, e = .ofIndexError x ∧ Stated storage request (.error x) := by
  have hres := resolution_withScope storage request
  rw [h] at hres
  cases hres with
  | unread => exact .inl ⟨_, rfl⟩
  | failed hstat => exact .inr (.inr ⟨_, rfl, hstat⟩)
  | absent hscope hstat => exact .inr (.inl ⟨_, rfl, hstat⟩)
  | rootUnread => exact .inl ⟨_, rfl⟩

section

variable [RegexBuilder]

theorem Asks.validation_answerRanked_iff (h : Asks storage now cache request effective) :
    (∃ e, s.answerRanked rank effective = .error e ∧ e.isValidation = true) ↔
      QueryUnread storage now cache request ∨ StoredUnread storage now cache request s rank := by
  rw [Store.validation_answerRanked_iff]
  constructor
  · rintro (⟨e, hq⟩ | ⟨q, hq, hplan, hhit⟩)
    · exact .inl ⟨effective, e, h, query_of_withScope h.scope ▸ hq⟩
    · exact .inr ⟨effective, q, h, hq, hplan, hhit⟩
  · rintro (⟨other, e, hother, hq⟩ | ⟨other, q, hother, hq, hplan, hhit⟩)
    · exact .inl ⟨e, (query_of_withScope h.scope).symm ▸ hq⟩
    · cases h.scope.symm.trans hother.scope
      exact .inr ⟨q, hq, hplan, hhit⟩

/-- If the index is not asked, it has no part in an error. -/
theorem not_unread_of_not_asks (h : ∀ effective, ¬ Asks storage now cache request effective) :
    ¬ (QueryUnread storage now cache request ∨ StoredUnread storage now cache request s rank) := by
  rintro (⟨effective, e, hasks, -⟩ | ⟨effective, q, hasks, -⟩)
  · exact h effective hasks
  · exact h effective hasks

theorem search_of_asks (hask : ∀ r, (ask r).run s = (s.answerRanked rank r, s))
    (h : Asks storage now cache request effective) :
    (search ask storage.resolver now cache request s).result =
      match s.answerRanked rank effective with
      | .ok response => .ok response.sortByScore
      | .error e => .error (.ofIndexError e) := by
  unfold search
  rw [h.scope]
  dsimp only
  rw [h.miss, hask]
  cases s.answerRanked rank effective <;> rfl

theorem exists_badRequest_of_asks (hask : ∀ r, (ask r).run s = (s.answerRanked rank r, s))
    (h : Asks storage now cache request effective) :
    (∃ e, (search ask storage.resolver now cache request s).result = .error (.badRequest e)) ↔
      ∃ e, s.answerRanked rank effective = .error e ∧ e.isValidation = true := by
  rw [search_of_asks hask h]
  cases s.answerRanked rank effective with
  | ok response => exact iff_of_false nofun nofun
  | error e =>
    simp only [Except.error.injEq, ServiceError.ofIndexError_eq_badRequest_iff, exists_eq_left']
    exact ⟨fun ⟨_, hvalid, _⟩ => hvalid, fun hvalid => ⟨e, hvalid, rfl⟩⟩

theorem Asks.error_cases (hask : ∀ r, (ask r).run s = (s.answerRanked rank r, s))
    (h : Asks storage now cache request effective) {x : ServiceError}
    (hx : (search ask storage.resolver now cache request s).result = .error x) :
    (∃ e, x = .badRequest e) ∨
      ∃ reason, x = .failed (.store reason) ∧ QueryRefused storage now cache request := by
  rw [search_of_asks hask h] at hx
  cases hanswer : s.answerRanked rank effective with
  | ok response =>
    rw [hanswer] at hx
    cases hx
  | error e =>
    rw [hanswer] at hx
    cases hx
    cases hvalid : e.isValidation with
    | true => exact .inl ⟨e, ServiceError.ofIndexError_eq_badRequest_iff.mpr ⟨hvalid, rfl⟩⟩
    | false =>
      obtain ⟨q, reason, hq, hplan, rfl⟩ := Store.exists_refused_of_answerRanked hanswer hvalid
      exact .inr ⟨reason, rfl, effective, q, h, hq, hplan⟩

/-- A search is called a bad request for a scope or a query that cannot be read, and just as well
for what storage or the index hold. All other errors are what storage says of the scope, or that an
expression of the query is refused, which is internal. -/
theorem bad_request_iff (hask : ∀ r, (ask r).run s = (s.answerRanked rank r, s))
    (storage : Storage) (now : Nat) (cache : SearchCache) (request : SearchRequest) :
    let result := (search ask storage.resolver now cache request s).result
    ((∃ e, result = .error (.badRequest e)) ↔
      ScopeUnread request ∨ QueryUnread storage now cache request ∨
        ProvidedUnread storage request ∨ StoredUnread storage now cache request s rank) ∧
    ∀ e, result = .error e → (∃ x, e = .badRequest x) ∨
      (∃ scope, e = .missingScope scope ∧ Stated storage request (.ok none)) ∨
      (∃ x, e = .ofIndexError x ∧ Stated storage request (.error x)) ∨
      ∃ reason, e = .failed (.store reason) ∧ QueryRefused storage now cache request := by
  intro result
  have hscope : (∃ e, withScope storage.resolver request = .error (.badRequest e)) ↔
      ScopeUnread request ∨ ProvidedUnread storage request := exists_badRequest_withScope_iff
  have hcauses : ScopeUnread request ∨ QueryUnread storage now cache request ∨
      ProvidedUnread storage request ∨ StoredUnread storage now cache request s rank ↔
      (ScopeUnread request ∨ ProvidedUnread storage request) ∨
        QueryUnread storage now cache request ∨ StoredUnread storage now cache request s rank := by
    tauto
  rw [hcauses, ← hscope]
  by_cases hasks : ∃ effective, Asks storage now cache request effective
  · obtain ⟨effective, hasks⟩ := hasks
    have hnone : ¬ ∃ e, withScope storage.resolver request = .error (.badRequest e) := by
      rintro ⟨e, he⟩
      cases hasks.scope.symm.trans he
    rw [or_iff_right hnone, ← hasks.validation_answerRanked_iff]
    refine ⟨exists_badRequest_of_asks hask hasks, ?_⟩
    intro e he
    exact (hasks.error_cases hask he).imp_right fun hrefused => .inr (.inr hrefused)
  · have hnone := not_exists.mp hasks
    rw [or_iff_left (not_unread_of_not_asks hnone)]
    refine ⟨exists_congr fun e => search_of_not_asks hnone _, ?_⟩
    intro e he
    have hstorage := storage_error_of_withScope ((search_of_not_asks hnone e).mp he)
    exact hstorage.imp_right fun h => h.imp_right .inl

theorem run_search_eq_answerRanked (s : Store) (r : SearchRequest) :
    (Store.engine.search r).run s = (s.answerRanked s.selectedFor r, s) := by
  rw [Store.run_search, Store.search_eq_answerRanked]

end

theorem bad_request_of_stored_id :
    let s : Store := ⟨[.bare "a!b!c" "st$sp!sp" "./a/x", .bare "st$sp!1" "" "./b"]⟩
    let storage : Storage := .ofShelf [("st$sp!d", .bare "st$sp!d" "st$sp!sp" "./a")]
    let request : SearchRequest := ⟨"type:file scope:st$sp!d", none, 1⟩
    (∀ r, (Store.engine.search r).run s = (s.answerRanked s.selectedFor r, s)) ∧
      Asks storage 0 [] request ⟨"type:file", some ⟨⟨"st", "sp", "sp"⟩, "./a"⟩, 1⟩ ∧
      ∃ e, (search Store.engine.search storage.resolver 0 [] request s).result =
        .error (.badRequest e) := by
  intro s storage request
  have hasks : Asks storage 0 [] request ⟨"type:file", some ⟨⟨"st", "sp", "sp"⟩, "./a"⟩, 1⟩ :=
    ⟨by decide +kernel, rfl⟩
  have hq : Query.parse "type:file" = .ok ⟨[⟨.must, some .kind, .kind .file⟩]⟩ := by
    decide +kernel
  refine ⟨run_search_eq_answerRanked s, hasks, ?_⟩
  apply (bad_request_iff (run_search_eq_answerRanked s) storage 0 [] request).1.mpr
  have hplan : Store.Plan.Compiles ⟨[⟨.must, some .kind, .kind .file⟩]⟩ :=
    Store.Plan.compiles_of_plain (List.forall_mem_singleton.mpr ⟨nofun, nofun⟩)
  refine .inr (.inr (.inr ⟨_, _, hasks, hq, hplan, .bare "a!b!c" "st$sp!sp" "./a/x", ?_⟩))
  decide +kernel

/-- Neither the query nor a scope is at fault. The id of a document is, or the root of a resource
that the scope names. -/
theorem bad_request_for_good_request :
    let s : Store := ⟨[.bare "a!b!c" "st$sp!sp" "./x"]⟩
    let storage : Storage := .ofShelf [("st$sp!d", .bare "st$sp!d" "" "./d")]
    let answer (query : String) := (search Store.engine.search storage.resolver 0 []
      ⟨query, none, 0⟩ s).result
    s.Reachable ∧ Query.parse "" = .ok ⟨[]⟩ ∧
      Query.extractScope "" = ("", none) ∧
      answer "" = .error (.badRequest (.invalidId "a!b!c")) ∧
      Query.extractScope "scope:st$sp!d" = ("", some "st$sp!d") ∧
      ResourceId.parse "st$sp!d" = .ok ⟨"st", "sp", "d"⟩ ∧
      answer "scope:st$sp!d" = .error (.badRequest (.invalidId "")) := by
  intro s storage answer
  refine ⟨Store.Reachable.empty.put "a!b!c" (.bare "" "st$sp!sp" "/x"), ?_⟩
  decide +kernel

end SearchService
end ResourceIndex
