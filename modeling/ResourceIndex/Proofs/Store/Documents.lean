import Mathlib.Data.List.Induction
import Mathlib.Data.List.Nodup
import ResourceIndex.Store.Basic
/-
The documents of a store under writes. As long as no id stands twice, writing some of the
documents anew is a map over all of them, and removing some is a filter, in whatever order the
writes are made.
-/
namespace ResourceIndex.Store

variable {s t : Store} {chosen rs : List Resource} {f g : Resource → Resource}

/-- No two documents have the same id. -/
def IdsUnique (s : Store) : Prop := (s.docs.map (·.id)).Nodup

/-- The store with the chosen documents written anew. -/
def rewrite (s : Store) (chosen : List Resource) (f : Resource → Resource) : Store :=
  ⟨s.docs.map fun d => if d ∈ chosen then f d else d⟩

/-- The store without the chosen documents. -/
def without (s : Store) (chosen : List Resource) : Store := ⟨s.docs.filter fun d => d ∉ chosen⟩

theorem IdsUnique.eq_of_id_eq (hs : s.IdsUnique) {d e : Resource} (hd : d ∈ s.docs)
    (he : e ∈ s.docs) (h : d.id = e.id) : d = e := List.inj_on_of_nodup_map hs hd he h

theorem IdsUnique.nodup (hs : s.IdsUnique) : s.docs.Nodup := List.Nodup.of_map _ hs

theorem mem_and_id_eq_of_get? {id : String} {d : Resource} (h : s.get? id = some d) :
    d ∈ s.docs ∧ d.id = id := by
  unfold get? at h
  have hid := List.find?_some h
  exact ⟨List.mem_of_find?_eq_some h, beq_iff_eq.mp hid⟩

theorem get?_eq_some_iff (hs : s.IdsUnique) {id : String} {d : Resource} :
    s.get? id = some d ↔ d ∈ s.docs ∧ d.id = id := by
  constructor
  · exact mem_and_id_eq_of_get?
  · rintro ⟨hd, rfl⟩
    cases hf : s.get? d.id with
    | none => exact absurd (beq_self_eq_true d.id) (List.find?_eq_none.mp hf d hd)
    | some e =>
      obtain ⟨he, hid⟩ := mem_and_id_eq_of_get? hf
      rw [hs.eq_of_id_eq he hd hid]

theorem place_of_mem {r : Resource} {ds : List Resource} (hds : (ds.map (·.id)).Nodup)
    (hr : r.id ∈ ds.map (·.id)) : place r ds = ds.map fun d => if d.id = r.id then r else d := by
  induction ds with
  | nil => cases hr
  | cons d ds ih =>
    obtain ⟨hd, hds⟩ := List.nodup_cons.mp hds
    rw [place, List.map_cons]
    split
    · rename_i hid
      rw [List.map_congr_left (g := id), List.map_id]
      intro e he
      have hne : e.id ≠ r.id := fun h => hd (List.mem_map.mpr ⟨e, he, h.trans hid.symm⟩)
      exact if_neg hne
    · rename_i hid
      rcases List.mem_cons.mp hr with h | h
      · exact absurd h.symm hid
      · rw [ih hds h]

theorem ids_place (r : Resource) (ds : List Resource) :
    (place r ds).map (·.id) =
      if r.id ∈ ds.map (·.id) then ds.map (·.id) else ds.map (·.id) ++ [r.id] := by
  induction ds with
  | nil => rfl
  | cons d ds ih =>
    rw [place]
    split
    · rename_i hid
      simp only [List.map_cons, hid, List.mem_cons, true_or, if_true]
    · rename_i hid
      simp only [List.map_cons, ih, List.mem_cons, Ne.symm hid, false_or]
      split
      · rfl
      · rfl

theorem IdsUnique.put (hs : s.IdsUnique) (r : Resource) : (s.put r).IdsUnique := by
  change ((place r s.docs).map (·.id)).Nodup
  rw [ids_place]
  split
  · exact hs
  · rename_i hr
    refine List.nodup_append.mpr ⟨hs, List.nodup_singleton _, ?_⟩
    rintro x hx y hy rfl
    cases List.mem_singleton.mp hy
    exact hr hx

/-- Where ids are kept, a rewritten document is among others only as itself. -/
theorem IdsUnique.rewritten_mem (hs : s.IdsUnique) (hf : ∀ d, (f d).id = d.id)
    (hc : ∀ d ∈ chosen, d ∈ s.docs) {d : Resource} (hd : d ∈ s.docs) (h : f d ∈ chosen) :
    f d = d := hs.eq_of_id_eq (hc _ h) hd (hf d)

theorem ids_rewrite (hf : ∀ d, (f d).id = d.id) :
    (s.rewrite chosen f).docs.map (·.id) = s.docs.map (·.id) := by
  simp only [rewrite, List.map_map]
  apply List.map_congr_left
  intro d hd
  simp only [Function.comp_apply]
  split
  · exact hf d
  · rfl

theorem IdsUnique.rewrite (hs : s.IdsUnique) (hf : ∀ d, (f d).id = d.id) :
    (s.rewrite chosen f).IdsUnique := by
  rw [IdsUnique, ids_rewrite hf]
  exact hs

theorem IdsUnique.without (hs : s.IdsUnique) (chosen : List Resource) :
    (s.without chosen).IdsUnique := (List.filter_sublist.map _).nodup hs

theorem rewrite_congr {others : List Resource} (h : ∀ d, d ∈ chosen ↔ d ∈ others) :
    s.rewrite chosen f = s.rewrite others f := by
  simp only [Store.rewrite, h]

theorem without_congr {others : List Resource} (h : ∀ d, d ∈ chosen ↔ d ∈ others) :
    s.without chosen = s.without others := by
  simp only [Store.without, h]

theorem put_eq_rewrite (hs : s.IdsUnique) (hf : ∀ d, (f d).id = d.id) {a : Resource}
    (ha : a ∈ s.docs) : s.put (f a) = s.rewrite [a] f := by
  have hmem : (f a).id ∈ s.docs.map (·.id) := List.mem_map.mpr ⟨a, ha, (hf a).symm⟩
  rw [put, place_of_mem hs hmem, Store.rewrite, Store.mk.injEq]
  apply List.map_congr_left
  intro d hd
  simp only [hf, List.mem_singleton]
  by_cases hda : d = a
  · subst hda
    rw [if_pos rfl, if_pos rfl]
  · rw [if_neg hda, if_neg fun h => hda (hs.eq_of_id_eq hd ha h)]

theorem writeAll_put (hs : s.IdsUnique) (hf : ∀ d, (f d).id = d.id)
    (hc : ∀ d ∈ chosen, d ∈ s.docs) (hn : chosen.Nodup) :
    s.writeAll (chosen.map fun d => .put (f d)) = s.rewrite chosen f := by
  induction chosen generalizing s with
  | nil => simp only [List.map_nil, writeAll, List.foldl_nil, Store.rewrite, List.not_mem_nil,
      if_false, List.map_id']
  | cons a chosen ih =>
    obtain ⟨ha, hcs⟩ := List.forall_mem_cons.mp hc
    obtain ⟨hna, hns⟩ := List.nodup_cons.mp hn
    rw [List.map_cons, writeAll, List.foldl_cons]
    change (s.put (f a)).writeAll _ = _
    rw [put_eq_rewrite hs hf ha]
    -- the rest of the chosen documents still stand where they stood
    have hrest : ∀ d ∈ chosen, d ∈ (s.rewrite [a] f).docs := by
      intro d hd
      have hda : d ∉ [a] := fun h => hna (List.mem_singleton.mp h ▸ hd)
      exact List.mem_map.mpr ⟨d, hcs d hd, if_neg hda⟩
    rw [ih (hs.rewrite hf) hrest hns, Store.rewrite, Store.rewrite, Store.rewrite, Store.mk.injEq,
      List.map_map]
    apply List.map_congr_left
    intro d hd
    simp only [Function.comp_apply, List.mem_cons, List.not_mem_nil, or_false]
    by_cases hda : d = a
    · subst hda
      have hfd : f d ∉ chosen := fun h => hna (hs.rewritten_mem hf hcs hd h ▸ h)
      simp only [if_true, true_or, if_neg hfd]
    · simp only [hda, if_false, false_or]

theorem writeAll_remove_ids (s : Store) (ids : List String) :
    s.writeAll (ids.map .remove) = ⟨s.docs.filter fun d => d.id ∉ ids⟩ := by
  induction ids generalizing s with
  | nil => simp only [List.map_nil, writeAll, List.foldl_nil, List.not_mem_nil,
      not_false_eq_true, decide_true, List.filter_true]
  | cons a ids ih =>
    rw [List.map_cons, writeAll, List.foldl_cons]
    change (s.remove a).writeAll _ = _
    rw [ih, remove, List.filter_filter, Store.mk.injEq]
    apply List.filter_congr
    intro d hd
    rw [Bool.eq_iff_iff]
    simp only [Bool.and_eq_true, decide_eq_true_eq, bne_iff_ne, ne_eq, List.mem_cons, not_or,
      and_comm]

theorem writeAll_remove (hs : s.IdsUnique) (hc : ∀ d ∈ chosen, d ∈ s.docs) :
    s.writeAll (chosen.map fun d => .remove d.id) = s.without chosen := by
  have hids : (chosen.map fun d => StoreWrite.remove d.id) =
      (chosen.map (·.id)).map .remove := by rw [List.map_map]; rfl
  rw [hids, writeAll_remove_ids, Store.without, Store.mk.injEq]
  apply List.filter_congr
  intro d hd
  rw [decide_eq_decide, not_iff_not, List.mem_map]
  constructor
  · rintro ⟨e, he, hid⟩
    exact hs.eq_of_id_eq (hc e he) hd hid ▸ he
  · exact fun h => ⟨d, h, rfl⟩

theorem get?_rewrite (hf : ∀ d, (f d).id = d.id) (id : String) :
    (s.rewrite chosen f).get? id = (s.get? id).map fun d => if d ∈ chosen then f d else d := by
  rw [get?, rewrite, List.find?_map, get?]
  congr 2
  funext d
  simp only [Function.comp_apply]
  split
  · rw [hf d]
  · rfl

theorem get?_rewrite_of_mem (hs : s.IdsUnique) (hf : ∀ d, (f d).id = d.id)
    (hc : ∀ d ∈ chosen, d ∈ s.docs) {d : Resource} (hd : d ∈ chosen) :
    (s.rewrite chosen f).get? d.id = some (f d) := by
  have hget : s.get? d.id = some d := (get?_eq_some_iff hs).mpr ⟨hc d hd, rfl⟩
  rw [get?_rewrite hf, hget, Option.map_some, if_pos hd]

theorem get?_rewrite_of_ne (hf : ∀ d, (f d).id = d.id) {id : String}
    (h : ∀ d ∈ chosen, d.id ≠ id) : (s.rewrite chosen f).get? id = s.get? id := by
  rw [get?_rewrite hf]
  cases hget : s.get? id with
  | none => rfl
  | some d =>
    have hd : d ∉ chosen := fun hc => h d hc (mem_and_id_eq_of_get? hget).2
    rw [Option.map_some, if_neg hd]

theorem IdsUnique.rewritten_mem_map (hs : s.IdsUnique) (hg : ∀ d, (g d).id = d.id)
    (hc : ∀ d ∈ chosen, d ∈ s.docs) {d : Resource} (hd : d ∈ s.docs) :
    (if d ∈ chosen then g d else d) ∈ chosen.map g ↔ d ∈ chosen := by
  split
  · rename_i h
    exact iff_of_true (List.mem_map_of_mem h) h
  · rename_i h
    refine iff_of_false ?_ h
    intro hm
    obtain ⟨e, he, rfl⟩ := List.mem_map.mp hm
    exact h (hs.eq_of_id_eq (hc e he) hd (hg e).symm ▸ he)

/-- Writing the same documents anew for a second time takes the first time along. -/
theorem rewrite_rewrite (hs : s.IdsUnique) (hg : ∀ d, (g d).id = d.id)
    (hc : ∀ d ∈ chosen, d ∈ s.docs) :
    (s.rewrite chosen g).rewrite (chosen.map g) f = s.rewrite chosen (f ∘ g) := by
  simp only [Store.rewrite, List.map_map, Store.mk.injEq]
  apply List.map_congr_left
  intro d hd
  simp only [Function.comp_apply, hs.rewritten_mem_map hg hc hd]
  split
  · rfl
  · rfl

theorem without_rewrite (hs : s.IdsUnique) (hg : ∀ d, (g d).id = d.id)
    (hc : ∀ d ∈ chosen, d ∈ s.docs) :
    (s.rewrite chosen g).without (chosen.map g) = s.without chosen := by
  simp only [Store.rewrite, Store.without, List.filter_map, Store.mk.injEq]
  have hfilter : (s.docs.filter ((fun d => decide (d ∉ chosen.map g)) ∘
      fun d => if d ∈ chosen then g d else d)) = s.docs.filter fun d => d ∉ chosen := by
    apply List.filter_congr
    intro d hd
    simp only [Function.comp_apply, hs.rewritten_mem_map hg hc hd]
  rw [hfilter]
  calc (s.docs.filter fun d => d ∉ chosen).map (fun d => if d ∈ chosen then g d else d)
      = (s.docs.filter fun d => d ∉ chosen).map id := by
        apply List.map_congr_left
        intro d hd
        exact if_neg (of_decide_eq_true (List.mem_filter.mp hd).2)
    _ = s.docs.filter fun d => d ∉ chosen := List.map_id _

end ResourceIndex.Store
