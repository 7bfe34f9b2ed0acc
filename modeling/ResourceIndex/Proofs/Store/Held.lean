import ResourceIndex.Proofs.Store.Reachable
import ResourceIndex.Proofs.Store.Source
/-
What a store holds is what its documents say. A write stores the text of a resource, and what is
read out of the text is held for it; subtree operations change nothing that the text would lose.
-/
namespace ResourceIndex

theorem Timestamp.isSettled_settled (t : Timestamp) : t.settled.IsSettled := by
  by_cases h : t.IsSettled
  · rwa [(settled_eq_self_iff t).mpr h]
  · rw [settled, dif_neg h]
    obtain ⟨-, -, -, -, -, -, -, -, -, hnano⟩ := t.real
    left
    change t.civil.nano - 1000000000 < 1000000000
    omega

theorem GeoCoordinates.stored_stored (g : GeoCoordinates) : g.stored.stored = g.stored := by
  simp only [stored, Option.filter_filter, Bool.and_self]

theorem Photo.stored_stored (p : Photo) : p.stored.stored = p.stored := by
  simp only [stored, Option.filter_filter, Bool.and_self, Option.map_map, Function.comp_def,
    (Timestamp.settled_eq_self_iff _).mpr (Timestamp.isSettled_settled _)]

/-- What is read out of a text loses nothing in another one. -/
theorem Resource.stored_stored (r : Resource) : r.stored.stored = r.stored := by
  simp only [stored, Document.stored, Option.map_map, Function.comp_def,
    GeoCoordinates.stored_stored, Photo.stored_stored,
    (Timestamp.settled_eq_self_iff _).mpr (Timestamp.isSettled_settled _)]

namespace Store

variable {s : Store} {root : Resource}

/-- What is staged for a resource is what is read out of the document that is written for it. -/
theorem resource?_of_prepared (id : String) (r : Resource) :
    (IndexDocument.ofResource { r with id := id, path := Path.normalize r.path }).resource? =
      .ok (prepared id r) :=
  IndexDocument.resource?_ofResource _

/-- Each document is what its own text says. -/
def HoldsTexts (s : Store) : Prop := ∀ d ∈ s.docs, d.stored = d

theorem stored_relocation {d : Resource} (h : d.stored = d) (root : Resource)
    (parentId location : String) :
    (relocation root parentId location d).stored = relocation root parentId location d := by
  rw [Resource.stored_eq_self_iff] at h ⊢
  unfold relocation
  split
  · exact h
  · exact h

theorem stored_marked {d : Resource} (h : d.stored = d) (deleted : Bool) :
    (marked deleted d).stored = marked deleted d := by
  rw [Resource.stored_eq_self_iff] at h ⊢
  exact h

theorem HoldsTexts.put (hs : s.HoldsTexts) (id : String) (r : Resource) :
    (s.put (prepared id r)).HoldsTexts := by
  intro d hd
  rcases mem_place hd with rfl | hd
  · exact Resource.stored_stored { r with id := id, path := Path.normalize r.path }
  · exact hs d hd

theorem HoldsTexts.rewrite (hs : s.HoldsTexts) {chosen : List Resource} {f : Resource → Resource}
    (hf : ∀ d, d.stored = d → (f d).stored = f d) : (s.rewrite chosen f).HoldsTexts := by
  intro d hd
  obtain ⟨e, he, rfl⟩ := List.mem_map.mp hd
  split
  · exact hf e (hs e he)
  · exact hs e he

theorem HoldsTexts.cascaded (hs : s.HoldsTexts) (root : Resource) (action : CascadeAction) :
    (s.cascaded root action).HoldsTexts := by
  cases action with
  | move parentId location =>
    exact hs.rewrite fun d hd => stored_relocation hd root parentId location
  | setDeleted deleted => exact hs.rewrite fun d hd => stored_marked hd deleted
  | purge onlyDeleted => exact fun d hd => hs d (List.mem_filter.mp hd).1

section

variable [RegexBuilder]

theorem HoldsTexts.submit (hs : s.HoldsTexts) (hids : s.IdsUnique) (m : Mutation) :
    ((engine.submit m).run s).2.HoldsTexts := by
  cases m with
  | upsert id r =>
    rw [run_submit_upsert]
    exact hs.put id r
  | cascade c =>
    rw [run_submit_cascade]
    cases hc : s.get? c.id with
    | none =>
      rw [cascade_of_get?_eq_none hc]
      exact hs
    | some root =>
      cases hlookup : lookupFault? root with
      | none =>
        rw [cascade_eq hids hc hlookup]
        exact hs.cascaded root c.action
      | some e =>
        rw [cascade_of_lookupFault hc hlookup]
        exact hs

/-- In each store that changes lead to, documents are held as they are read out of their texts. -/
theorem Reachable.holdsTexts (h : s.Reachable) : s.HoldsTexts := by
  induction h with
  | empty => exact fun _ hd => absurd hd List.not_mem_nil
  | submit m hs ih => exact ih.submit hs.wellFormed.ids m

theorem Reachable.resource?_of_mem (h : s.Reachable) {d : Resource} (hd : d ∈ s.docs) :
    (IndexDocument.ofResource d).resource? = .ok d := by
  rw [IndexDocument.resource?_ofResource, h.holdsTexts d hd]

end

end Store
end ResourceIndex
