import Mathlib.Data.List.Forall2
import ResourceIndex.Engine
/-
From hits to results. If the ids of the resources can be read, a response is made, and it shows
those that lie where the request searches, each once and in their order.
-/
namespace ResourceIndex

/-- Both ids that a result shows of a resource can be read. -/
structure Resource.HasReadableIds (r : Resource) : Prop where
  own : ∃ id, ResourceId.parse r.id = .ok id
  root : ∃ id, ResourceId.parse r.rootId = .ok id

theorem ResourceId.isSome_parse?_iff (s : String) :
    (ResourceId.parse? s).isSome = true ↔ ∃ id, ResourceId.parse s = .ok id := by
  rw [ResourceId.parse?]
  cases ResourceId.parse s with
  | ok id => exact iff_of_true rfl ⟨id, rfl⟩
  | error e => exact iff_of_false Bool.false_ne_true fun ⟨_, h⟩ => nomatch h

instance (r : Resource) : Decidable r.HasReadableIds :=
  decidable_of_iff
    ((ResourceId.parse? r.id).isSome = true ∧ (ResourceId.parse? r.rootId).isSome = true)
    ⟨fun ⟨hown, hroot⟩ => ⟨(ResourceId.isSome_parse?_iff _).mp hown,
        (ResourceId.isSome_parse?_iff _).mp hroot⟩,
      fun ⟨hown, hroot⟩ => ⟨(ResourceId.isSome_parse?_iff _).mpr hown,
        (ResourceId.isSome_parse?_iff _).mpr hroot⟩⟩

namespace Match

/-- The result is made from the resource, with some score and some highlights. -/
def Shows (m : Match) (r : Resource) : Prop :=
  ∃ score highlights, ofResource r score highlights = .ok m

theorem exists_ofResource {r : Resource} (hr : r.HasReadableIds) (score : Binary32)
    (highlights : String) : ∃ m, ofResource r score highlights = .ok m := by
  obtain ⟨⟨id, hid⟩, ⟨rootId, hroot⟩⟩ := hr
  rw [ofResource, hid, hroot]
  exact ⟨_, rfl⟩

end Match

namespace SearchResponse

variable {request : SearchRequest} {hits : List Hit}

theorem exists_matchesOf (request : SearchRequest)
    (hids : ∀ h ∈ hits, h.resource.HasReadableIds) :
    ∃ found, matchesOf request hits = .ok found := by
  induction hits with
  | nil => exact ⟨[], rfl⟩
  | cons h hits ih =>
    obtain ⟨hh, ht⟩ := List.forall_mem_cons.mp hids
    obtain ⟨found, hfound⟩ := ih ht
    rw [matchesOf]
    split
    · obtain ⟨m, hm⟩ := Match.exists_ofResource hh h.score h.highlights
      exact ⟨m :: found, by rw [hm, hfound]; rfl⟩
    · exact ⟨found, hfound⟩

/-- Whatever is answered shows the hits that lie where the request searches, in their order. -/
theorem shows_of_matchesOf {found : List Match} (h : matchesOf request hits = .ok found) :
    List.Forall₂ Match.Shows found
      ((hits.map (·.resource)).filter fun r => request.acceptsPath r.path) := by
  induction hits generalizing found with
  | nil =>
    cases h
    exact .nil
  | cons x hits ih =>
    rw [matchesOf] at h
    rw [List.map_cons, List.filter_cons]
    split at h
    · rename_i hin
      rw [if_pos hin]
      split at h
      · cases h
      · rename_i m hm
        cases hrest : matchesOf request hits with
        | error e =>
          rw [hrest] at h
          cases h
        | ok ms =>
          rw [hrest] at h
          cases h
          exact .cons ⟨x.score, x.highlights, hm⟩ (ih hrest)
    · rename_i hin
      rw [if_neg hin]
      exact ih h

/-- What is counted of the hits is what the index counted beyond them and what is shown. -/
theorem shows_of_ofHits {total : Int} {response : SearchResponse}
    (h : ofHits request hits total = .ok response) :
    List.Forall₂ Match.Shows response.found
        ((hits.map (·.resource)).filter fun r => request.acceptsPath r.path) ∧
      response.total = response.found.length + (total - hits.length) := by
  rw [ofHits] at h
  cases hfound : matchesOf request hits with
  | error e =>
    rw [hfound] at h
    cases h
  | ok found =>
    rw [hfound] at h
    cases h
    have hshow := shows_of_matchesOf hfound
    refine ⟨hshow, ?_⟩
    have hlength := hshow.length_eq
    have hsplit := List.length_eq_countP_add_countP
      (fun h : Hit => request.acceptsPath h.resource.path) (l := hits)
    rw [← List.countP_eq_length_filter, List.countP_map] at hlength
    simp only [Function.comp_def] at hlength
    simp only [Bool.not_eq_true, Bool.decide_eq_false] at hsplit
    simp only
    omega

theorem exists_ofHits (request : SearchRequest)
    (hids : ∀ h ∈ hits, h.resource.HasReadableIds) (total : Int) :
    ∃ response, ofHits request hits total = .ok response := by
  obtain ⟨found, hfound⟩ := exists_matchesOf request hids
  exact ⟨_, by rw [ofHits, hfound]; rfl⟩

end SearchResponse
end ResourceIndex
