import Mathlib.Data.List.Basic
import ResourceIndex.Proofs.Identity.Text
import ResourceIndex.Proofs.Text.Digits
import ResourceIndex.Service
/-
What a search service gives again. A response that was kept belongs to the last search that the
engine has answered under the same key, and for requests whose parts can be told apart in a key
that search was made for the same request.
-/
namespace ResourceIndex

open Text

namespace SearchRequest

variable {a b : SearchRequest}

/-- The parts of the request are told apart in its key. -/
structure IsPlain (r : SearchRequest) : Prop where
  query : '|' ∉ r.query.toList
  id : ∀ reference, r.reference = some reference → reference.resourceId.IsPlain
  idText : ∀ reference, r.reference = some reference → ':' ∉ reference.resourceId.text.toList

/-- What a key ends in: the place that is searched. -/
def placeText (r : SearchRequest) : List Char :=
  match r.reference with
  | some reference => reference.text.toList
  | none => []

theorem toList_keyOf (r : SearchRequest) : (SearchCache.keyOf r).toList =
    r.query.toList ++ '|' :: (intText r.pageSize ++ '|' :: r.placeText) := by
  unfold SearchCache.keyOf placeText
  cases r.reference <;> simp

theorem reference_eq_of_placeText (ha : a.IsPlain) (hb : b.IsPlain)
    (h : a.placeText = b.placeText) : a.reference = b.reference := by
  have htext : ∀ reference : Reference, reference.text.toList =
      reference.resourceId.text.toList ++ ':' :: reference.path.toList := by
    intro reference
    simp [Reference.text]
  unfold placeText at h
  cases hra : a.reference with
  | none =>
    cases hrb : b.reference with
    | none => rfl
    | some y =>
      rw [hra, hrb] at h
      exact absurd h (by simp [htext])
  | some x =>
    cases hrb : b.reference with
    | none =>
      rw [hra, hrb] at h
      exact absurd h (by simp [htext])
    | some y =>
      rw [hra, hrb] at h
      simp only [htext] at h
      obtain ⟨hid, hpath⟩ := append_inj_of_led (ha.idText x hra) (hb.idText y hrb)
        (.inr ⟨_, rfl⟩) (.inr ⟨_, rfl⟩) h
      have hids := (ha.id x hra).text_inj (hb.id y hrb) (String.toList_inj.mp hid)
      have hpaths := String.toList_inj.mp (List.cons.inj hpath).2
      cases x
      cases y
      exact congrArg some (Reference.mk.injEq .. ▸ ⟨hids, hpaths⟩)

theorem eq_of_keyOf (ha : a.IsPlain) (hb : b.IsPlain)
    (h : SearchCache.keyOf a = SearchCache.keyOf b) : a = b := by
  have hbar : ∀ r : SearchRequest, '|' ∉ intText r.pageSize := fun r =>
    notMem_intText (by decide) (by decide) r.pageSize
  have hlist := congrArg String.toList h
  rw [toList_keyOf, toList_keyOf] at hlist
  obtain ⟨hquery, hrest⟩ :=
    append_inj_of_led ha.query hb.query (.inr ⟨_, rfl⟩) (.inr ⟨_, rfl⟩) hlist
  obtain ⟨hsize, hplace⟩ := append_inj_of_led (hbar a) (hbar b) (.inr ⟨_, rfl⟩) (.inr ⟨_, rfl⟩)
    (List.cons.inj hrest).2
  have hreference := reference_eq_of_placeText ha hb (List.cons.inj hplace).2
  cases a
  cases b
  exact SearchRequest.mk.injEq .. ▸ ⟨String.toList_inj.mp hquery, hreference, intText_inj hsize⟩

end SearchRequest

namespace SearchService

variable {σ : Type}

/-- A search that an engine was asked for. -/
structure Inquiry where
  time : Nat
  request : SearchRequest
  result : Except IndexError SearchResponse
deriving DecidableEq

/-- The engine with an account of what it is asked. -/
def recording (ask : SearchRequest → Action σ SearchResponse) (now : Nat)
    (request : SearchRequest) : Action (σ × List Inquiry) SearchResponse := fun s =>
  let answer := (ask request).run s.1
  (answer.1, answer.2, s.2 ++ [⟨now, request, answer.1⟩])

theorem run_recording (ask : SearchRequest → Action σ SearchResponse) (now : Nat)
    (request : SearchRequest) (s : σ × List Inquiry) : (recording ask now request).run s =
      (((ask request).run s.1).1, ((ask request).run s.1).2,
        s.2 ++ [⟨now, request, ((ask request).run s.1).1⟩]) := rfl

/-- What calls of a service lead to. Between them time passes, and the engine may change. -/
inductive Reached (ask : SearchRequest → Action σ SearchResponse) :
    Nat → SearchCache → σ × List Inquiry → Prop
  | start (now : Nat) (s : σ) : Reached ask now [] (s, [])
  | pass {now : Nat} {cache : SearchCache} {s : σ × List Inquiry} (ms : Nat) :
      Reached ask now cache s → Reached ask (now + ms) cache s
  | change {now : Nat} {cache : SearchCache} {s : σ × List Inquiry} (t : σ) :
      Reached ask now cache s → Reached ask now cache (t, s.2)
  | search {now : Nat} {cache : SearchCache} {s : σ × List Inquiry} (resolve : ScopeResolver)
      (request : SearchRequest) : Reached ask now cache s →
      Reached ask now (search (recording ask now) resolve now cache request s).cache
        (search (recording ask now) resolve now cache request s).state

/-- The response that an inquiry got under a key, and when. -/
def Inquiry.answer? (key : String) (i : Inquiry) : Option (Nat × SearchResponse) :=
  match i.result with
  | .ok response => if SearchCache.keyOf i.request = key then some (i.time, response) else none
  | .error _ => none

/-- The last response that an engine gave under a key, and when. -/
def lastAnswer? (key : String) (asked : List Inquiry) : Option (Nat × SearchResponse) :=
  asked.reverse.findSome? (Inquiry.answer? key)

theorem lastAnswer?_concat (key : String) (asked : List Inquiry) (i : Inquiry) :
    lastAnswer? key (asked ++ [i]) = (i.answer? key).or (lastAnswer? key asked) := by
  simp only [lastAnswer?, List.reverse_append, List.reverse_singleton, List.singleton_append,
    List.findSome?_cons]
  cases i.answer? key <;> rfl

/-- What may be given again at a time of the last response. -/
def again? (now : Nat) (last : Option (Nat × SearchResponse)) : Option SearchResponse :=
  last.bind fun a => if now - a.1 < SearchCache.lifetime then some a.2.sortByScore else none

end SearchService

namespace SearchCache

variable {cache : SearchCache} {now time : Nat} {key other : String} {response : SearchResponse}

theorem fresh?_store_self :
    (store cache now key response).fresh? time key =
      if time - now < lifetime then some response else none := by
  have hnone : List.find? (fun c => c.key == key && isFresh time c)
      (cache.filter fun c => isFresh now c && c.key != key) = none := by
    apply List.find?_eq_none.mpr
    intro c hc
    have hkey := (Bool.and_eq_true_iff.mp (List.mem_filter.mp hc).2).2
    simp [bne_iff_ne.mp hkey]
  unfold fresh? store
  rw [List.find?_cons, hnone]
  by_cases hfresh : time - now < lifetime
  · simp [isFresh, hfresh]
  · simp [isFresh, hfresh]

/-- What is dropped is not fresh any more at any later time. -/
theorem fresh?_store_of_ne (h : other ≠ key) (htime : now ≤ time) :
    (store cache now key response).fresh? time other = cache.fresh? time other := by
  unfold fresh? store
  have hhead : (key == other) = false := beq_eq_false_iff_ne.mpr (Ne.symm h)
  rw [List.find?_cons_of_neg (by simp [hhead]), List.find?_filter]
  congr 2
  funext c
  by_cases hc : c.key = other
  · by_cases hfresh : time - c.stored < lifetime
    · have hnow : now - c.stored < lifetime := by omega
      simp [isFresh, hc, hfresh, hnow, h]
    · simp [isFresh, hfresh]
  · simp [hc]

end SearchCache

namespace SearchService

variable {σ : Type} {ask : SearchRequest → Action σ SearchResponse} {now : Nat}
  {cache : SearchCache} {s : σ × List Inquiry}

/-- The ways in which a search can go. -/
inductive Course (ask : SearchRequest → Action σ SearchResponse) (resolve : ScopeResolver)
    (now : Nat) (cache : SearchCache) (request : SearchRequest) (s : σ × List Inquiry) :
    Outcome (σ × List Inquiry) → Prop
  | unresolved {e : ServiceError} (hscope : withScope resolve request = .error e) :
      Course ask resolve now cache request s ⟨.error e, cache, s⟩
  | again {effective : SearchRequest} {response : SearchResponse}
      (hscope : withScope resolve request = .ok effective)
      (hfresh : cache.fresh? now (SearchCache.keyOf effective) = some response) :
      Course ask resolve now cache request s ⟨.ok response, cache, s⟩
  | failed {effective : SearchRequest} {e : IndexError} {t : σ}
      (hscope : withScope resolve request = .ok effective)
      (hfresh : cache.fresh? now (SearchCache.keyOf effective) = none)
      (hask : (ask effective).run s.1 = (.error e, t)) :
      Course ask resolve now cache request s
        ⟨.error (.ofIndexError e), cache, t, s.2 ++ [⟨now, effective, .error e⟩]⟩
  | answered {effective : SearchRequest} {found : SearchResponse} {t : σ}
      (hscope : withScope resolve request = .ok effective)
      (hfresh : cache.fresh? now (SearchCache.keyOf effective) = none)
      (hask : (ask effective).run s.1 = (.ok found, t)) :
      Course ask resolve now cache request s
        ⟨.ok found.sortByScore, cache.store now (SearchCache.keyOf effective) found.sortByScore,
          t, s.2 ++ [⟨now, effective, .ok found⟩]⟩

theorem course_search (ask : SearchRequest → Action σ SearchResponse) (resolve : ScopeResolver)
    (now : Nat) (cache : SearchCache) (request : SearchRequest) (s : σ × List Inquiry) :
    Course ask resolve now cache request s
      (search (recording ask now) resolve now cache request s) := by
  unfold search
  split
  · rename_i e hscope
    exact .unresolved hscope
  · rename_i effective hscope
    dsimp only
    split
    · rename_i response hfresh
      exact .again hscope hfresh
    · rename_i hfresh
      cases hask : (ask effective).run s.1 with
      | mk result t =>
        rw [run_recording, hask]
        cases result with
        | error e => exact .failed hscope hfresh hask
        | ok found => exact .answered hscope hfresh hask

/-- The cache holds of each key the last response, for as long as it may be given again. -/
theorem Reached.fresh? (h : Reached ask now cache s) {time : Nat} (htime : now ≤ time)
    (key : String) : cache.fresh? time key = again? time (lastAnswer? key s.2) := by
  induction h generalizing time with
  | start => rfl
  | pass ms _ ih => exact ih (Nat.le_trans (Nat.le_add_right _ ms) htime)
  | change t _ ih => exact ih htime
  | @search now cache s resolve request _ ih =>
    have hcourse := course_search ask resolve now cache request s
    generalize SearchService.search (recording ask now) resolve now cache request s = o at hcourse ⊢
    cases hcourse with
    | unresolved => exact ih htime
    | again => exact ih htime
    | failed =>
      rw [lastAnswer?_concat]
      exact ih htime
    | @answered effective found t =>
      rw [lastAnswer?_concat]
      by_cases hkey : key = SearchCache.keyOf effective
      · subst hkey
        rw [SearchCache.fresh?_store_self]
        simp [Inquiry.answer?, again?]
      · rw [SearchCache.fresh?_store_of_ne hkey htime, ih htime]
        simp [Inquiry.answer?, Ne.symm hkey]

theorem Reached.time_le (h : Reached ask now cache s) : ∀ i ∈ s.2, i.time ≤ now := by
  induction h with
  | start => exact fun i hi => absurd hi List.not_mem_nil
  | pass ms _ ih => exact fun i hi => Nat.le_trans (ih i hi) (Nat.le_add_right _ ms)
  | change t _ ih => exact ih
  | @search now cache s resolve request _ ih =>
    have hcourse := course_search ask resolve now cache request s
    generalize SearchService.search (recording ask now) resolve now cache request s = o at hcourse ⊢
    have hlast : ∀ i : Inquiry, i.time = now → ∀ j ∈ s.2 ++ [i], j.time ≤ now := by
      intro i hi j hj
      rcases List.mem_append.mp hj with hj | hj
      · exact ih j hj
      · rw [List.mem_singleton.mp hj]
        exact Nat.le_of_eq hi
    cases hcourse with
    | unresolved => exact ih
    | again => exact ih
    | failed => exact hlast _ rfl
    | answered => exact hlast _ rfl

theorem exists_of_lastAnswer? {key : String} {asked : List Inquiry} {a : Nat × SearchResponse}
    (h : lastAnswer? key asked = some a) :
    ∃ before inquiry behind, asked = before ++ inquiry :: behind ∧ inquiry.answer? key = some a ∧
      ∀ later ∈ behind, later.answer? key = none := by
  obtain ⟨behind, inquiry, before, hasked, hanswer, hlater⟩ := List.findSome?_eq_some_iff.mp h
  refine ⟨before.reverse, inquiry, behind.reverse, ?_, hanswer, ?_⟩
  · have hreverse := congrArg List.reverse hasked
    simpa using hreverse
  · exact fun later hl => hlater later (List.mem_reverse.mp hl)

theorem answer?_eq_some_iff {key : String} {i : Inquiry} {time : Nat} {response : SearchResponse} :
    i.answer? key = some (time, response) ↔
      i.time = time ∧ i.result = .ok response ∧ SearchCache.keyOf i.request = key := by
  unfold Inquiry.answer?
  cases i.result with
  | error e => simp
  | ok found =>
    by_cases hkey : SearchCache.keyOf i.request = key <;> simp [hkey]

/-- The answer of an inquiry is given again for a request. -/
structure Inquiry.GivesAgain (i : Inquiry) (now : Nat) (effective : SearchRequest)
    (response : SearchResponse) : Prop where
  answered : ∃ found, i.result = .ok found ∧ response = found.sortByScore
  past : i.time ≤ now
  recent : now < i.time + SearchCache.lifetime
  key : SearchCache.keyOf i.request = SearchCache.keyOf effective
  request : i.request.IsPlain → effective.IsPlain → i.request = effective

theorem Reached.givesAgain (h : Reached ask now cache s) {effective : SearchRequest}
    {response : SearchResponse}
    (hfresh : cache.fresh? now (SearchCache.keyOf effective) = some response) :
    ∃ before inquiry behind, s.2 = before ++ inquiry :: behind ∧
      inquiry.GivesAgain now effective response ∧
      ∀ later ∈ behind, later.answer? (SearchCache.keyOf effective) = none := by
  rw [h.fresh? (Nat.le_refl now)] at hfresh
  obtain ⟨⟨time, found⟩, hlast, hagain⟩ := Option.bind_eq_some_iff.mp hfresh
  obtain ⟨hlifetime, hresponse⟩ := Option.ite_none_right_eq_some.mp hagain
  obtain ⟨before, inquiry, behind, hasked, hanswer, hlater⟩ := exists_of_lastAnswer? hlast
  obtain ⟨rfl, hresult, hkey⟩ := answer?_eq_some_iff.mp hanswer
  have hpast := h.time_le inquiry (hasked ▸ List.mem_append_right before List.mem_cons_self)
  refine ⟨before, inquiry, behind, hasked, ?_, hlater⟩
  exact {
    answered := ⟨found, hresult, (Option.some.inj hresponse).symm⟩
    past := hpast
    recent := by
      simp only at hlifetime
      omega
    key := hkey
    request := fun hi he => SearchRequest.eq_of_keyOf hi he hkey }

/-- A response for which the engine is not asked was given less than a lifetime ago to the last
search that had an answer under the same key. Every other response is the engine's, and after an
error all is kept as it was. -/
theorem response_given_again_for_key (h : Reached ask now cache s) (resolve : ScopeResolver)
    (request : SearchRequest) :
    let o := search (recording ask now) resolve now cache request s
    (∀ response, o.result = .ok response → o.state.2 = s.2 →
      ∃ effective, withScope resolve request = .ok effective ∧
        ∃ before inquiry behind, s.2 = before ++ inquiry :: behind ∧
          inquiry.GivesAgain now effective response ∧
          ∀ later ∈ behind, later.answer? (SearchCache.keyOf effective) = none) ∧
    (∀ response, o.result = .ok response → o.state.2 ≠ s.2 →
      ∃ effective found, withScope resolve request = .ok effective ∧
        o.state.2 = s.2 ++ [⟨now, effective, .ok found⟩] ∧ response = found.sortByScore) ∧
    ∀ e, o.result = .error e → o.cache = cache := by
  intro o
  have hcourse : Course ask resolve now cache request s o :=
    course_search ask resolve now cache request s
  clear_value o
  cases hcourse with
  | unresolved => exact ⟨nofun, nofun, fun _ _ => rfl⟩
  | @again effective response hscope hfresh =>
    refine ⟨?_, fun _ _ hasked => absurd rfl hasked, nofun⟩
    intro _ hr _
    cases hr
    exact ⟨effective, hscope, h.givesAgain hfresh⟩
  | failed => exact ⟨nofun, nofun, fun _ _ => rfl⟩
  | @answered effective found t hscope =>
    refine ⟨?_, ?_, nofun⟩
    · intro _ _ hasked
      exact absurd (congrArg List.length hasked) (by simp)
    · intro _ hr _
      cases hr
      exact ⟨effective, found, hscope, rfl, rfl⟩

theorem response_given_again_within_lifetime :
    let ask : SearchRequest → Action Unit SearchResponse := fun r => pure ⟨[], r.query.length⟩
    let resolve : ScopeResolver := fun id => .ok (some ⟨id, "./docs"⟩)
    let request (query : String) : SearchRequest := ⟨query, none, 7⟩
    let effective : SearchRequest := ⟨"x", some ⟨⟨"st", "sp", "docs"⟩, "./docs"⟩, 7⟩
    let first := search (recording ask 0) resolve 0 [] (request "x scope:st$sp!docs") ((), [])
    let second := search (recording ask 999) resolve 999 first.cache (request "scope:st$sp!docs x")
      first.state
    Reached ask 999 first.cache first.state ∧ second.result = .ok ⟨[], 1⟩ ∧
      second.state.2 = first.state.2 ∧
      ∃ inquiry ∈ first.state.2, inquiry.request = effective ∧
        inquiry.GivesAgain 999 effective ⟨[], 1⟩ := by
  intro ask resolve request effective first second
  have h : Reached ask 999 first.cache first.state :=
    ((Reached.start 0 ()).search resolve (request "x scope:st$sp!docs")).pass 999
  have hresult : second.result = .ok ⟨[], 1⟩ := by decide +kernel
  have hasked : second.state.2 = first.state.2 := by decide +kernel
  have hscope : withScope resolve (request "scope:st$sp!docs x") = .ok effective := by
    decide +kernel
  have hfirst : first.state.2 = [⟨0, effective, .ok ⟨[], 1⟩⟩] := by decide +kernel
  obtain ⟨hagain, -, -⟩ := response_given_again_for_key h resolve (request "scope:st$sp!docs x")
  obtain ⟨_, hsame, before, inquiry, behind, hlist, hgives, -⟩ := hagain _ hresult hasked
  cases hscope.symm.trans hsame
  have hmem : inquiry ∈ first.state.2 := hlist ▸ List.mem_append_right before List.mem_cons_self
  have hinquiry := List.mem_singleton.mp (hfirst ▸ hmem)
  exact ⟨h, hresult, hasked, inquiry, hmem, congrArg Inquiry.request hinquiry, hgives⟩

/-- The mark between an id and a path may stand in both, so that two places share a key. -/
theorem response_given_again_for_other_place :
    let ask : SearchRequest → Action Unit SearchResponse := fun r =>
      pure ⟨[], r.reference.elim 0 fun x => x.path.length⟩
    let resolve : ScopeResolver := fun _ => .ok none
    let stored : SearchRequest := ⟨"x", some ⟨⟨"st", "sp", "o"⟩, "a:./b"⟩, 0⟩
    let request : SearchRequest := ⟨"x", some ⟨⟨"st", "sp", "o:a"⟩, "./b"⟩, 0⟩
    let first := search (recording ask 0) resolve 0 [] stored ((), [])
    let second := search (recording ask 0) resolve 0 first.cache request first.state
    Reached ask 0 first.cache first.state ∧ withScope resolve request = .ok request ∧
      second.result = .ok ⟨[], 5⟩ ∧ second.state.2 = first.state.2 ∧
      ∀ inquiry ∈ first.state.2, inquiry.request ≠ request := by
  intro ask resolve stored request first second
  refine ⟨(Reached.start 0 ()).search resolve stored, ?_, ?_, ?_, ?_⟩
  · decide +kernel
  · decide +kernel
  · decide +kernel
  · decide +kernel

end SearchService
end ResourceIndex
