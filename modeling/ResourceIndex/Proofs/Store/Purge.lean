import ResourceIndex.Indexer
import ResourceIndex.Proofs.Store.Trash
/-
Purging what was trashed. A purge takes the whole subtree of its root along, so it spares live
documents exactly if none is found below the root. After a deletion there is none, and there is
none as long as nothing live is written below.
-/
namespace ResourceIndex.Store

variable {s t : Store} {root d : Resource}

/-- Where a document has to be stored to be found below a root. -/
structure FoundBelow (root d : Resource) : Prop where
  container : root.isContainer = true
  space : d.rootId = root.rootId
  path : ∃ u, d.path.toList = root.path.toList ++ '/' :: u ∧ '\n' ∉ u

theorem mem_below_iff_foundBelow : d ∈ s.below root ↔ d ∈ s.docs ∧ FoundBelow root d := by
  rw [mem_below_iff, mem_descendants_iff]
  constructor
  · rintro ⟨hc, hd, hroot, hpath⟩
    exact ⟨hd, hc, hroot, hpath⟩
  · rintro ⟨hd, hc, hroot, hpath⟩
    exact ⟨hc, hd, hroot, hpath⟩

theorem mem_write {w : StoreWrite} (h : d ∈ (s.write w).docs) : d ∈ s.docs ∨ w = .put d := by
  cases w with
  | put r =>
    rcases mem_place h with rfl | hd
    · exact .inr rfl
    · exact .inl hd
  | remove id => exact .inl (List.mem_filter.mp h).1

/-- Each document was there before or is one of those that were put. -/
theorem mem_writeAll {ws : List StoreWrite} (h : d ∈ (s.writeAll ws).docs) :
    d ∈ s.docs ∨ .put d ∈ ws := by
  induction ws generalizing s with
  | nil => exact .inl h
  | cons w ws ih =>
    rcases ih h with hd | hd
    · rcases mem_write hd with hold | rfl
      · exact .inl hold
      · exact .inr List.mem_cons_self
    · exact .inr (List.mem_cons_of_mem w hd)

section

variable [RegexBuilder]

/-- The writes that a change makes; a subtree operation that fails makes none. -/
def writesOf (s : Store) : Mutation → List StoreWrite
  | .upsert id r => [.put (prepared id r)]
  | .cascade c =>
    match s.get? c.id with
    | none => []
    | some root =>
      if lookupFault? root = none then cascadeWrites root (s.below root) c.action else []

theorem state_run_submit (s : Store) (m : Mutation) :
    ((engine.submit m).run s).2 = s.writeAll (s.writesOf m) := by
  cases m with
  | upsert id r => rw [run_submit_upsert]; rfl
  | cascade c =>
    rw [run_submit_cascade, cascade, writesOf]
    cases s.get? c.id with
    | none => rfl
    | some root =>
      dsimp only
      rw [findBelow_eq]
      cases lookupFault? root with
      | none => rfl
      | some e => rfl

/-- Changes led from one store to another, and none of them put a live document where it is found
below the root. -/
inductive LeftAlone (root : Resource) : Store → Store → Prop
  | refl (s : Store) : LeftAlone root s s
  | submit {s t : Store} (m : Mutation) : LeftAlone root s t →
    (∀ d, .put d ∈ t.writesOf m → FoundBelow root d → d.deleted = true) →
    LeftAlone root s ((engine.submit m).run t).2

theorem trashed_below_submit {m : Mutation} (hs : ∀ d ∈ s.below root, d.deleted = true)
    (hm : ∀ d, .put d ∈ s.writesOf m → FoundBelow root d → d.deleted = true) :
    ∀ d ∈ ((engine.submit m).run s).2.below root, d.deleted = true := by
  intro d hd
  obtain ⟨hstored, hfound⟩ := mem_below_iff_foundBelow.mp hd
  rw [state_run_submit] at hstored
  rcases mem_writeAll hstored with hold | hput
  · exact hs d (mem_below_iff_foundBelow.mpr ⟨hold, hfound⟩)
  · exact hm d hput hfound

theorem LeftAlone.trashed_below (h : LeftAlone root s t)
    (hs : ∀ d ∈ s.below root, d.deleted = true) : ∀ d ∈ t.below root, d.deleted = true := by
  induction h with
  | refl => exact hs
  | submit m _ hm ih => exact trashed_below_submit ih hm

end

theorem below_congr {other : Resource} (hkind : root.kind = other.kind)
    (hspace : root.rootId = other.rootId) (hpath : root.path = other.path) :
    s.below root = s.below other := by
  rw [below, Resource.isContainer, hkind, hspace, hpath]
  rfl

theorem trashed_below_cascaded (s : Store) (root : Resource) :
    ∀ d ∈ (s.cascaded root (.setDeleted true)).below root, d.deleted = true := by
  intro d hd
  have hbelow : (s.cascaded root (.setDeleted true)).below (marked true root) =
      (s.below root).map (marked true) := below_rewrite (keepsPlace_marked true)
  have hsame : (s.cascaded root (.setDeleted true)).below root =
      (s.cascaded root (.setDeleted true)).below (marked true root) := below_congr rfl rfl rfl
  rw [hsame, hbelow] at hd
  obtain ⟨e, -, rfl⟩ := List.mem_map.mp hd
  rfl

theorem mem_purged_iff : d ∈ (s.cascaded root (.purge false)).docs ↔
    d ∈ s.docs ∧ d ∉ root :: s.below root := by
  rw [cascaded_purge_all, without, List.mem_filter, decide_eq_true_eq]
  rfl

theorem purge_spares_live_iff (hroot : root.deleted = true) :
    (∀ d ∈ s.docs, d.deleted = false → d ∈ (s.cascaded root (.purge false)).docs) ↔
      ∀ d ∈ s.below root, d.deleted = true := by
  constructor
  · intro hspared d hd
    rw [← Bool.not_eq_false]
    intro hlive
    have hkept := hspared d (mem_docs_of_mem_below hd) hlive
    exact (mem_purged_iff.mp hkept).2 (List.mem_cons_of_mem root hd)
  · intro htrashed d hd hlive
    refine mem_purged_iff.mpr ⟨hd, ?_⟩
    intro hmem
    have hdeleted : d.deleted = true := by
      rcases List.mem_cons.mp hmem with rfl | hbelow
      · exact hroot
      · exact htrashed d hbelow
    rw [hlive] at hdeleted
    exact Bool.false_ne_true hdeleted

/-- A purge of a trashed document removes it and what is found below it, and nothing else. So it
spares all live documents exactly if none is found below, as is so when the document was deleted
at the same place and left alone since. If nothing can be looked up below, it fails. -/
theorem purge_trashed_exact [RegexBuilder] (hs : s.Reachable) {id : String}
    (hr : s.get? id = some root) (hroot : root.deleted = true) :
    (lookupFault? root = none → ∃ t, (engine.submit (.purge id false)).run s = (.ok (), t) ∧
      (∀ (x : Indexer Store StoreWrite) (reference : Reference), x.engine = engine →
        reference.resourceId.text = id → (x.purgeItem reference).run s = (.ok (), t)) ∧
      (∀ d, d ∈ t.docs ↔ d ∈ s.docs ∧ d ∉ root :: s.below root) ∧
      ((∀ d ∈ s.docs, d.deleted = false → d ∈ t.docs) ↔ ∀ d ∈ s.below root, d.deleted = true) ∧
      ∀ u before, u.Reachable → u.get? id = some before → before.kind = root.kind →
        before.rootId = root.rootId → before.path = root.path →
        LeftAlone root ((engine.submit (.delete id)).run u).2 s →
        ∀ d ∈ s.docs, d.deleted = false → d ∈ t.docs) ∧
    ∀ e, lookupFault? root = some e →
      (engine.submit (.purge id false)).run s = (.error e, s) ∧
      ∀ (x : Indexer Store StoreWrite) (reference : Reference), x.engine = engine →
        reference.resourceId.text = id → (x.purgeItem reference).run s = (.error e, s) := by
  constructor
  · intro hlookup
    have hrun : (engine.submit (.purge id false)).run s =
        (.ok (), s.cascaded root (.purge false)) := run_submit_of_get? hs.wellFormed.ids hr hlookup
    refine ⟨_, hrun, ?_, fun d => mem_purged_iff, purge_spares_live_iff hroot, ?_⟩
    · rintro x reference hx rfl
      rw [Indexer.purgeItem, hx, hrun]
    · intro u before hu hbefore hkind hspace hpath halone
      have hdelete : (engine.submit (.delete id)).run u =
          (.ok (), u.cascaded before (.setDeleted true)) :=
        run_submit_of_get? hu.wellFormed.ids hbefore
          ((lookupFault?_congr hkind hpath).trans hlookup)
      rw [hdelete] at halone
      refine (purge_spares_live_iff hroot).mpr (halone.trashed_below ?_)
      rw [← below_congr hkind hspace hpath]
      exact trashed_below_cascaded u before
  · intro e hlookup
    have hrun : (engine.submit (.purge id false)).run s = (.error e, s) :=
      run_submit_of_lookupFault hr hlookup
    refine ⟨hrun, ?_⟩
    rintro x reference hx rfl
    rw [Indexer.purgeItem, hx, hrun]

/-- A trashed folder with a trashed file, and a live folder that has taken its place since. -/
theorem purge_of_trashed_folder :
    let s : Store := ⟨[⟨"1", "r", "./a", "", .container, true, false, .empty⟩,
      ⟨"2", "r", "./a/x", "", .file, true, false, .empty⟩,
      ⟨"3", "r", "./a", "", .container, false, false, .empty⟩]⟩
    s.Reachable ∧ ∃ folder t, s.get? "1" = some folder ∧ folder.deleted = true ∧
      (engine.submit (.purge "1" false)).run s = (.ok (), t) ∧
      (∀ d ∈ s.docs, d.deleted = false → d ∈ t.docs) ∧ t.docs.map (·.id) = ["3"] := by
  intro s
  let u : Store := ⟨[⟨"1", "r", "./a", "", .container, false, false, .empty⟩,
    .bare "2" "r" "./a/x"]⟩
  have hu : u.Reachable := (Reachable.empty.put "1"
    ⟨"", "r", "/a", "", .container, false, false, .empty⟩).put "2" (.bare "" "r" "/a/x")
  have hs : s.Reachable := (hu.submit (.delete "1")).put "3"
    ⟨"", "r", "/a", "", .container, false, false, .empty⟩
  have hfolder : s.get? "1" = some ⟨"1", "r", "./a", "", .container, true, false, .empty⟩ := rfl
  obtain ⟨t, hrun, -, -, -, hspared⟩ := (purge_trashed_exact hs hfolder rfl).1 rfl
  have halone : LeftAlone ⟨"1", "r", "./a", "", .container, true, false, .empty⟩
      ((engine.submit (.delete "1")).run u).2 s := by
    refine (LeftAlone.refl _).submit (.upsert "3"
      ⟨"", "r", "/a", "", .container, false, false, .empty⟩) ?_
    intro d hput hfound
    cases List.mem_singleton.mp hput
    obtain ⟨v, hv, -⟩ := hfound.path
    cases hv
  refine ⟨hs, _, t, hfolder, rfl, hrun, hspared u _ hu rfl rfl rfl rfl halone, ?_⟩
  have hids : (((engine.submit (.purge "1" false)).run s).2.docs.map (·.id)) = ["3"] := rfl
  rwa [hrun] at hids

/-- Storage has put a live folder with a live file at the place of a trashed folder. -/
theorem purge_of_trashed_folder_removes_live :
    let s : Store := ⟨[⟨"1", "r", "./a", "", .container, true, false, .empty⟩,
      ⟨"2", "r", "./a", "", .container, false, false, .empty⟩, .bare "3" "r" "./a/x"]⟩
    s.Reachable ∧ (∃ folder, s.get? "1" = some folder ∧ folder.deleted = true) ∧
      ¬ ∀ d ∈ s.docs, d.deleted = false →
        d ∈ ((engine.submit (.purge "1" false)).run s).2.docs := by
  intro s
  have hs : s.Reachable := (((Reachable.empty.put "1"
    ⟨"", "r", "/a", "", .container, false, false, .empty⟩).submit (.delete "1")).put "2"
    ⟨"", "r", "/a", "", .container, false, false, .empty⟩).put "3" (.bare "" "r" "/a/x")
  have hfile : Resource.bare "3" "r" "./a/x" ∈ s.docs :=
    List.mem_cons_of_mem _ (List.mem_cons_of_mem _ List.mem_cons_self)
  have hleft : ((engine.submit (.purge "1" false)).run s).2.docs =
      [⟨"2", "r", "./a", "", .container, false, false, .empty⟩] := rfl
  refine ⟨hs, ⟨_, rfl, rfl⟩, ?_⟩
  intro hspared
  have hkept := hspared _ hfile rfl
  rw [hleft] at hkept
  exact absurd (List.mem_singleton.mp hkept) (by decide)

end ResourceIndex.Store
