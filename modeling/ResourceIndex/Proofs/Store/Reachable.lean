import ResourceIndex.Proofs.Store.Batches
import ResourceIndex.Proofs.Store.Relocation
/-
The stores that changes lead to. In each of them every id stands for one document and all paths
are canonical, and what is staged for changes leads to no others.
-/
namespace ResourceIndex.Store

variable {s t : Store} {root : Resource}

section

variable [RegexBuilder]

/-- The stores that an engine's changes lead to from the empty store, failed changes included. -/
inductive Reachable : Store → Prop
  | empty : Reachable .empty
  | submit {s : Store} (m : Mutation) : Reachable s → Reachable ((engine.submit m).run s).2

theorem Reachable.put (hs : s.Reachable) (id : String) (r : Resource) :
    (s.put (prepared id r)).Reachable := by
  have h := hs.submit (.upsert id r)
  rwa [run_submit_upsert] at h

end

theorem wellFormed_empty : Store.empty.WellFormed :=
  ⟨List.nodup_nil, fun _ hd => absurd hd List.not_mem_nil⟩

theorem mem_place {r d : Resource} {ds : List Resource} (h : d ∈ place r ds) : d = r ∨ d ∈ ds := by
  induction ds with
  | nil => exact .inl (List.mem_singleton.mp h)
  | cons e ds ih =>
    rw [place] at h
    split at h
    · rcases List.mem_cons.mp h with h | h
      · exact .inl h
      · exact .inr (List.mem_cons_of_mem e h)
    · rcases List.mem_cons.mp h with rfl | h
      · exact .inr List.mem_cons_self
      · exact (ih h).imp_right (List.mem_cons_of_mem e)

theorem WellFormed.put (hs : s.WellFormed) {r : Resource}
    (hr : Path.normalize r.path = r.path) : (s.put r).WellFormed := by
  refine ⟨hs.ids.put r, ?_⟩
  intro d hd
  rcases mem_place hd with rfl | hd
  · exact hr
  · exact hs.paths d hd

theorem WellFormed.rewrite (hs : s.WellFormed) {chosen : List Resource}
    {f : Resource → Resource} (hf : ∀ d, (f d).id = d.id)
    (hp : ∀ d ∈ chosen, d ∈ s.docs → Path.normalize (f d).path = (f d).path) :
    (s.rewrite chosen f).WellFormed := by
  refine ⟨hs.ids.rewrite hf, ?_⟩
  intro d hd
  obtain ⟨e, he, rfl⟩ := List.mem_map.mp hd
  split
  · rename_i hc
    exact hp e hc he
  · exact hs.paths e he

theorem WellFormed.without (hs : s.WellFormed) (chosen : List Resource) :
    (s.without chosen).WellFormed :=
  ⟨hs.ids.without chosen, fun d hd => hs.paths d (List.mem_filter.mp hd).1⟩

/-- One case for each subtree operation; only a move touches paths. -/
theorem WellFormed.cascaded (hs : s.WellFormed) (hr : root ∈ s.docs) (action : CascadeAction) :
    (s.cascaded root action).WellFormed := by
  cases action with
  | move parentId location =>
    exact hs.rewrite (relocation_id root parentId location) fun d hd _ =>
      normalize_relocation hs hr hd parentId location
  | setDeleted deleted => exact hs.rewrite (fun _ => rfl) fun d _ hd => hs.paths d hd
  | purge onlyDeleted => exact hs.without _

section

variable [RegexBuilder] {c : Cascade}

/-- A subtree operation on a stored document succeeds if what lies below can be looked up. -/
theorem run_submit_of_get? (hs : s.IdsUnique) (hr : s.get? c.id = some root)
    (hlookup : lookupFault? root = none) :
    (engine.submit (.cascade c)).run s = (.ok (), s.cascaded root c.action) := by
  rw [run_submit_cascade, cascade_eq hs hr hlookup]

/-- A subtree operation fails if what lies below its root cannot be looked up, and does nothing. -/
theorem run_submit_of_lookupFault {e : IndexError} (hr : s.get? c.id = some root)
    (hlookup : lookupFault? root = some e) :
    (engine.submit (.cascade c)).run s = (.error e, s) := by
  rw [run_submit_cascade, cascade_of_lookupFault hr hlookup]

theorem WellFormed.submit (hs : s.WellFormed) (m : Mutation) :
    ((engine.submit m).run s).2.WellFormed := by
  cases m with
  | upsert id r =>
    rw [run_submit_upsert]
    exact hs.put (Path.normalize_normalize r.path)
  | cascade c =>
    cases hc : s.get? c.id with
    | none =>
      rw [run_submit_cascade, cascade_of_get?_eq_none hc]
      exact hs
    | some root =>
      cases hlookup : lookupFault? root with
      | none =>
        rw [run_submit_of_get? hs.ids hc hlookup]
        exact hs.cascaded (mem_and_id_eq_of_get? hc).1 c.action
      | some e =>
        rw [run_submit_of_lookupFault hc hlookup]
        exact hs

theorem Reachable.wellFormed (h : s.Reachable) : s.WellFormed := by
  induction h with
  | empty => exact wellFormed_empty
  | submit m _ ih => exact ih.submit m

/-- A staged operation that stands for a change: a write was made from an upsert. -/
def Submitted : Staged StoreWrite → Prop
  | .write w => ∃ id r, w = .put (prepared id r)
  | .cascade _ => True

theorem Reachable.perform (hs : s.Reachable) {op : Staged StoreWrite} (hop : Submitted op) :
    ((executor.perform op).run s).2.Reachable := by
  cases op with
  | write w =>
    obtain ⟨id, r, rfl⟩ := hop
    rw [run_perform_put]
    exact hs.put id r
  | cascade c =>
    have hm := hs.submit (.cascade c)
    rw [run_submit_cascade] at hm
    change ((executor.apply c).run s).2.Reachable
    rwa [run_apply]

end

end ResourceIndex.Store
