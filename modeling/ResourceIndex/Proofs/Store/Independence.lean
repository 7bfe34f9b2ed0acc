import ResourceIndex.Proofs.Store.Purge
/-
Subtree operations that do not meet. What an operation makes of a document depends on its root and
the document alone, and stays at the places that the operation touches. So two operations whose
places lie apart find the same documents, and do the same to them, in either order.
-/
namespace ResourceIndex.Store

variable {s : Store} {root other d e : Resource} {action action' : CascadeAction}

/-- Whether an operation on the root takes the document along, wherever both are stored. -/
def Belongs (root d : Resource) : Prop := d.id = root.id ∨ FoundBelow root d

theorem mem_subtree_iff_belongs (hs : s.IdsUnique) (hr : root ∈ s.docs) (hd : d ∈ s.docs) :
    d ∈ s.subtree root ↔ Belongs root d := by
  rw [subtree, List.mem_cons, mem_below_iff_foundBelow]
  constructor
  · rintro (rfl | ⟨-, hfound⟩)
    · exact .inl rfl
    · exact .inr hfound
  · rintro (hid | hfound)
    · exact .inl (hs.eq_of_id_eq hd hr hid)
    · exact .inr ⟨hd, hfound⟩

/-- What an operation makes of a document of its subtree; a purge may make nothing of it. -/
def effect (root : Resource) : CascadeAction → Resource → Option Resource
  | .move parentId location, d => some (relocation root parentId location d)
  | .setDeleted deleted, d => some (marked deleted d)
  | .purge onlyDeleted, d => if !onlyDeleted || d.deleted then none else some d

/-- What an operation makes of a stored document. -/
def outcome (s : Store) (root : Resource) (action : CascadeAction) (d : Resource) :
    Option Resource :=
  if d ∈ s.subtree root then effect root action d else some d

theorem outcome_of_belongs (hs : s.WellFormed) (hr : root ∈ s.docs) (hd : d ∈ s.docs)
    (h : Belongs root d) : s.outcome root action d = effect root action d :=
  if_pos ((mem_subtree_iff_belongs hs.ids hr hd).mpr h)

theorem outcome_of_not_belongs (hs : s.WellFormed) (hr : root ∈ s.docs) (hd : d ∈ s.docs)
    (h : ¬ Belongs root d) : s.outcome root action d = some d :=
  if_neg fun hmem => h ((mem_subtree_iff_belongs hs.ids hr hd).mp hmem)

/-- All four kinds of operations go through the documents one by one. -/
theorem cascaded_eq_filterMap (s : Store) (root : Resource) (action : CascadeAction) :
    s.cascaded root action = ⟨s.docs.filterMap (s.outcome root action)⟩ := by
  have hrewrite : ∀ f : Resource → Resource, (∀ d, effect root action d = some (f d)) →
      s.rewrite (s.subtree root) f = ⟨s.docs.filterMap (s.outcome root action)⟩ := by
    intro f hf
    rw [rewrite, Store.mk.injEq, ← List.filterMap_eq_map]
    congr 1
    funext d
    rw [Function.comp_apply, outcome, hf d]
    split
    · rfl
    · rfl
  cases action with
  | move parentId location => exact hrewrite _ fun d => rfl
  | setDeleted deleted => exact hrewrite _ fun d => rfl
  | purge onlyDeleted =>
    rw [cascaded, without, Store.mk.injEq, ← List.filterMap_eq_filter]
    congr 1
    funext d
    simp only [Option.guard, outcome, effect, List.mem_filter, decide_eq_true_eq]
    by_cases hmem : d ∈ s.subtree root
    · by_cases hgone : (!onlyDeleted || d.deleted) = true
      · simp only [hmem, hgone, and_self, not_true_eq_false, if_false, if_true]
      · simp only [hmem, hgone, and_false, not_false_eq_true, if_true, if_false,
          Bool.false_eq_true]
    · simp only [hmem, false_and, not_false_eq_true, if_true, if_false]

theorem cascaded_cascaded (s : Store) (root : Resource) (action : CascadeAction)
    (other : Resource) (action' : CascadeAction) :
    (s.cascaded root action).cascaded other action' = ⟨s.docs.filterMap fun d =>
      (s.outcome root action d).bind ((s.cascaded root action).outcome other action')⟩ := by
  rw [cascaded_eq_filterMap _ other, ← List.filterMap_filterMap, cascaded_eq_filterMap s root]

theorem mem_cascaded_iff : e ∈ (s.cascaded root action).docs ↔
    ∃ d ∈ s.docs, s.outcome root action d = some e := by
  rw [cascaded_eq_filterMap]
  exact List.mem_filterMap

/-- The paths of an operation: where its root is, and where a move takes it. -/
def touched (root : Resource) : CascadeAction → List String
  | .move _ location => [root.path, Path.normalize location]
  | .setDeleted _ | .purge _ => [root.path]

/-- Two operations in different spaces, or on paths of which none lies within one of the other. -/
def Apart (root : Resource) (action : CascadeAction) (other : Resource)
    (action' : CascadeAction) : Prop :=
  root.rootId ≠ other.rootId ∨ ∀ p ∈ touched root action, ∀ q ∈ touched other action',
    Path.isWithin p q = false ∧ Path.isWithin q p = false

theorem Apart.symm (h : Apart root action other action') : Apart other action' root action := by
  rcases h with hspace | hpaths
  · exact .inl hspace.symm
  · exact .inr fun q hq p hp => (hpaths p hp q hq).symm

/-- The document lies at one of the places of an operation, or below. -/
structure Lies (root : Resource) (action : CascadeAction) (d : Resource) : Prop where
  space : d.rootId = root.rootId
  path : ∃ p ∈ touched root action, Path.isWithin d.path p = true

theorem path_mem_touched : root.path ∈ touched root action := by
  cases action with
  | move parentId location => exact List.mem_cons_self
  | setDeleted deleted => exact List.mem_cons_self
  | purge onlyDeleted => exact List.mem_cons_self

theorem normalize_of_mem_touched (hr : Path.normalize root.path = root.path) {p : String}
    (hp : p ∈ touched root action) : Path.normalize p = p := by
  cases action with
  | move parentId location =>
    rcases List.mem_cons.mp hp with rfl | hp
    · exact hr
    · cases List.mem_singleton.mp hp
      exact Path.normalize_normalize location
  | setDeleted deleted =>
    cases List.mem_singleton.mp hp
    exact hr
  | purge onlyDeleted =>
    cases List.mem_singleton.mp hp
    exact hr

/-- No document lies at places of both operations. -/
theorem Apart.not_lies (h : Apart root action other action')
    (hr : Path.normalize root.path = root.path) (ho : Path.normalize other.path = other.path)
    (hd : Path.normalize d.path = d.path) (hlies : Lies root action d) :
    ¬ Lies other action' d := by
  intro hlies'
  rcases h with hspace | hpaths
  · exact hspace (hlies.space.symm.trans hlies'.space)
  · obtain ⟨p, hp, hwithin⟩ := hlies.path
    obtain ⟨q, hq, hwithin'⟩ := hlies'.path
    obtain ⟨hpq, hqp⟩ := hpaths p hp q hq
    rcases Path.isWithin_or_isWithin hd (normalize_of_mem_touched hr hp)
      (normalize_of_mem_touched ho hq) hwithin hwithin' with hbelow | hbelow
    · exact Bool.false_ne_true (hpq.symm.trans hbelow)
    · exact Bool.false_ne_true (hqp.symm.trans hbelow)

theorem lies_of_foundBelow (hr : Path.normalize root.path = root.path)
    (hd : Path.normalize d.path = d.path) (h : FoundBelow root d) : Lies root action d := by
  obtain ⟨u, hu, -⟩ := h.path
  exact ⟨h.space, root.path, path_mem_touched, (Path.isWithin_iff hd hr).mpr (.inr ⟨u, hu⟩)⟩

theorem lies_of_belongs (hs : s.WellFormed) (hr : root ∈ s.docs) (hd : d ∈ s.docs)
    (h : Belongs root d) : Lies root action d := by
  rcases h with hid | hfound
  · rw [hs.ids.eq_of_id_eq hd hr hid]
    exact ⟨rfl, root.path, path_mem_touched, Path.isWithin_self (hs.paths root hr)⟩
  · exact lies_of_foundBelow (hs.paths root hr) (hs.paths d hd) hfound

theorem relocation_rootId (root : Resource) (parentId location : String) (d : Resource) :
    (relocation root parentId location d).rootId = d.rootId := by
  unfold relocation
  split
  · rfl
  · rfl

theorem id_of_effect (h : effect root action d = some e) : e.id = d.id := by
  cases action with
  | move parentId location =>
    cases h
    exact relocation_id root parentId location d
  | setDeleted deleted =>
    cases h
    rfl
  | purge onlyDeleted =>
    rw [effect] at h
    split at h
    · cases h
    · cases h
      rfl

/-- What an operation makes of its documents stays at its places; one case for each kind. -/
theorem lies_of_effect (hs : s.WellFormed) (hr : root ∈ s.docs) (hd : d ∈ s.docs)
    (hbelongs : Belongs root d) (h : effect root action d = some e) : Lies root action e := by
  cases action with
  | move parentId location =>
    cases h
    have hmem := (mem_subtree_iff_belongs hs.ids hr hd).mpr hbelongs
    have hplace : Lies root (.move parentId location) d := lies_of_belongs hs hr hd hbelongs
    refine ⟨(relocation_rootId root parentId location d).trans hplace.space, ?_⟩
    exact ⟨_, List.mem_cons_of_mem _ List.mem_cons_self,
      isWithin_relocation hs hr hmem parentId location⟩
  | setDeleted deleted =>
    cases h
    have hplace : Lies root (.setDeleted deleted) d := lies_of_belongs hs hr hd hbelongs
    exact ⟨hplace.space, hplace.path⟩
  | purge onlyDeleted =>
    rw [effect] at h
    split at h
    · cases h
    · cases h
      exact lies_of_belongs hs hr hd hbelongs

theorem Apart.not_belongs (h : Apart root action other action') (hs : s.WellFormed)
    (hr : root ∈ s.docs) (ho : other ∈ s.docs) (hd : d ∈ s.docs) (hbelongs : Belongs root d) :
    ¬ Belongs other d := by
  intro hbelongs'
  exact h.not_lies (hs.paths root hr) (hs.paths other ho) (hs.paths d hd)
    (lies_of_belongs hs hr hd hbelongs) (lies_of_belongs hs ho hd hbelongs')

theorem Apart.mem_cascaded (h : Apart root action other action') (hs : s.WellFormed)
    (hr : root ∈ s.docs) (ho : other ∈ s.docs) : other ∈ (s.cascaded root action).docs := by
  have hother : ¬ Belongs root other := fun hbelongs =>
    h.not_belongs hs hr ho ho hbelongs (.inl rfl)
  exact mem_cascaded_iff.mpr ⟨other, ho, outcome_of_not_belongs hs hr ho hother⟩

/-- What the first operation has made of its own documents, the second leaves as it is. -/
theorem Apart.outcome_effect (h : Apart root action other action') (hs : s.WellFormed)
    (hr : root ∈ s.docs) (ho : other ∈ s.docs) (hd : d ∈ s.docs) (hbelongs : Belongs root d)
    (heffect : effect root action d = some e) :
    (s.cascaded root action).outcome other action' e = some e := by
  have hafter := hs.cascaded hr action
  have he : e ∈ (s.cascaded root action).docs :=
    mem_cascaded_iff.mpr ⟨d, hd, (outcome_of_belongs hs hr hd hbelongs).trans heffect⟩
  refine outcome_of_not_belongs hafter (h.mem_cascaded hs hr ho) he ?_
  rintro (hid | hfound)
  · have hsame : d.id = other.id := (id_of_effect heffect).symm.trans hid
    exact h.not_belongs hs hr ho hd hbelongs (.inl hsame)
  · have hcanonical := hafter.paths e he
    exact h.not_lies (hs.paths root hr) (hs.paths other ho) hcanonical
      (lies_of_effect hs hr hd hbelongs heffect)
      (lies_of_foundBelow (hs.paths other ho) hcanonical hfound)

theorem Apart.bind_outcome_of_belongs (h : Apart root action other action') (hs : s.WellFormed)
    (hr : root ∈ s.docs) (ho : other ∈ s.docs) (hd : d ∈ s.docs) (hbelongs : Belongs root d) :
    (s.outcome root action d).bind ((s.cascaded root action).outcome other action') =
      s.outcome root action d := by
  rw [outcome_of_belongs hs hr hd hbelongs]
  cases heffect : effect root action d with
  | none => rfl
  | some e => exact h.outcome_effect hs hr ho hd hbelongs heffect

/-- A document that the first operation leaves alone, the second finds as it was. -/
theorem Apart.bind_outcome_of_not_belongs (h : Apart root action other action')
    (hs : s.WellFormed) (hr : root ∈ s.docs) (ho : other ∈ s.docs) (hd : d ∈ s.docs)
    (hbelongs : ¬ Belongs root d) :
    (s.outcome root action d).bind ((s.cascaded root action).outcome other action') =
      s.outcome other action' d := by
  have hkept : s.outcome root action d = some d := outcome_of_not_belongs hs hr hd hbelongs
  have hd' : d ∈ (s.cascaded root action).docs := mem_cascaded_iff.mpr ⟨d, hd, hkept⟩
  have ho' := h.mem_cascaded hs hr ho
  have hs' := hs.cascaded hr action
  rw [hkept, Option.bind_some]
  by_cases hother : Belongs other d
  · rw [outcome_of_belongs hs' ho' hd' hother, outcome_of_belongs hs ho hd hother]
  · rw [outcome_of_not_belongs hs' ho' hd' hother, outcome_of_not_belongs hs ho hd hother]

/-- Each document belongs to one of the roots at most, and only that operation changes it. -/
theorem Apart.cascaded_comm (h : Apart root action other action') (hs : s.WellFormed)
    (hr : root ∈ s.docs) (ho : other ∈ s.docs) :
    (s.cascaded root action).cascaded other action' =
      (s.cascaded other action').cascaded root action := by
  rw [cascaded_cascaded, cascaded_cascaded, Store.mk.injEq]
  apply List.filterMap_congr
  intro d hd
  by_cases hroot : Belongs root d
  · have hother := h.not_belongs hs hr ho hd hroot
    rw [h.bind_outcome_of_belongs hs hr ho hd hroot,
      h.symm.bind_outcome_of_not_belongs hs ho hr hd hother]
  · rw [h.bind_outcome_of_not_belongs hs hr ho hd hroot]
    by_cases hother : Belongs other d
    · rw [h.symm.bind_outcome_of_belongs hs ho hr hd hother]
    · rw [h.symm.bind_outcome_of_not_belongs hs ho hr hd hother,
        outcome_of_not_belongs hs ho hd hother, outcome_of_not_belongs hs hr hd hroot]

section

variable [RegexBuilder]

/-- The result of an operation on a stored root. -/
def verdict (root : Resource) : Except IndexError Unit :=
  match lookupFault? root with
  | some e => .error e
  | none => .ok ()

/-- The store after an operation on a stored root, which does nothing if it fails. -/
def attempted (s : Store) (root : Resource) (action : CascadeAction) : Store :=
  if lookupFault? root = none then s.cascaded root action else s

theorem run_submit_eq_attempted (hs : s.IdsUnique) {c : Cascade} (hr : s.get? c.id = some root) :
    (engine.submit (.cascade c)).run s = (verdict root, s.attempted root c.action) := by
  rw [verdict, attempted]
  cases hlookup : lookupFault? root with
  | none => exact run_submit_of_get? hs hr hlookup
  | some e => exact run_submit_of_lookupFault hr hlookup

theorem WellFormed.attempted (hs : s.WellFormed) (hr : root ∈ s.docs) (action : CascadeAction) :
    (s.attempted root action).WellFormed := by
  rw [Store.attempted]
  split
  · exact hs.cascaded hr action
  · exact hs

theorem Apart.mem_attempted (h : Apart root action other action') (hs : s.WellFormed)
    (hr : root ∈ s.docs) (ho : other ∈ s.docs) : other ∈ (s.attempted root action).docs := by
  rw [attempted]
  split
  · exact h.mem_cascaded hs hr ho
  · exact ho

theorem Apart.attempted_comm (h : Apart root action other action') (hs : s.WellFormed)
    (hr : root ∈ s.docs) (ho : other ∈ s.docs) :
    (s.attempted root action).attempted other action' =
      (s.attempted other action').attempted root action := by
  simp only [attempted]
  by_cases hroot : lookupFault? root = none
  · by_cases hother : lookupFault? other = none
    · rw [if_pos hroot, if_pos hother, if_pos hroot, if_pos hother]
      exact h.cascaded_comm hs hr ho
    · rw [if_neg hother, if_neg hother]
  · rw [if_neg hroot, if_neg hroot]

/-- Two operations on stored documents whose places lie apart have the same results in either order,
and both orders lead to the same store. -/
theorem independent_operations_commute (hs : s.Reachable) (c c' : Cascade)
    (hr : s.get? c.id = some root) (ho : s.get? c'.id = some other)
    (h : Apart root c.action other c'.action) :
    ∃ t t' u, (engine.submit (.cascade c)).run s = (verdict root, t) ∧
      (engine.submit (.cascade c')).run t = (verdict other, u) ∧
      (engine.submit (.cascade c')).run s = (verdict other, t') ∧
      (engine.submit (.cascade c)).run t' = (verdict root, u) := by
  have hwf := hs.wellFormed
  obtain ⟨hmem, hid⟩ := mem_and_id_eq_of_get? hr
  obtain ⟨hmem', hid'⟩ := mem_and_id_eq_of_get? ho
  have hfirst := (hwf.attempted hmem c.action).ids
  have hfirst' := (hwf.attempted hmem' c'.action).ids
  have hfound : (s.attempted root c.action).get? c'.id = some other :=
    (get?_eq_some_iff hfirst).mpr ⟨h.mem_attempted hwf hmem hmem', hid'⟩
  have hfound' : (s.attempted other c'.action).get? c.id = some root :=
    (get?_eq_some_iff hfirst').mpr ⟨h.symm.mem_attempted hwf hmem' hmem, hid⟩
  refine ⟨s.attempted root c.action, s.attempted other c'.action,
    (s.attempted root c.action).attempted other c'.action, run_submit_eq_attempted hwf.ids hr,
    run_submit_eq_attempted hfirst hfound, run_submit_eq_attempted hwf.ids ho, ?_⟩
  rw [h.attempted_comm hwf hmem hmem']
  exact run_submit_eq_attempted hfirst' hfound'

end

/-- A folder is moved and another is purged whose name begins with the name of the first. -/
theorem move_commutes_with_purge_of_namesake :
    let s : Store := ⟨[⟨"1", "r", "./a", "", .container, false, false, .empty⟩,
      .bare "2" "r" "./a/x", ⟨"3", "r", "./ab", "", .container, false, false, .empty⟩,
      .bare "4" "r" "./ab/y"]⟩
    s.Reachable ∧ ∃ folder namesake t t' u, s.get? "1" = some folder ∧
      s.get? "3" = some namesake ∧
      Apart folder (.move "p" "/c/d") namesake (.purge false) ∧
      (engine.submit (.move "1" "p" "/c/d")).run s = (.ok (), t) ∧
      (engine.submit (.purge "3" false)).run t = (.ok (), u) ∧
      (engine.submit (.purge "3" false)).run s = (.ok (), t') ∧
      (engine.submit (.move "1" "p" "/c/d")).run t' = (.ok (), u) ∧
      u.docs.map (·.path) = ["./c/d", "./c/d/x"] := by
  intro s
  have hs : s.Reachable := (((Reachable.empty.put "1"
    ⟨"", "r", "/a", "", .container, false, false, .empty⟩).put "2" (.bare "" "r" "/a/x")).put "3"
    ⟨"", "r", "/ab", "", .container, false, false, .empty⟩).put "4" (.bare "" "r" "/ab/y")
  have hr : s.get? "1" = some ⟨"1", "r", "./a", "", .container, false, false, .empty⟩ := rfl
  have ho : s.get? "3" = some ⟨"3", "r", "./ab", "", .container, false, false, .empty⟩ := rfl
  have hapart : Apart ⟨"1", "r", "./a", "", .container, false, false, .empty⟩
      (.move "p" "/c/d") ⟨"3", "r", "./ab", "", .container, false, false, .empty⟩
      (.purge false) := .inr (by decide)
  obtain ⟨t, t', u, hmove, hpurge, hpurge', hmove'⟩ := independent_operations_commute hs
    ⟨"1", .move "p" "/c/d"⟩ ⟨"3", .purge false⟩ hr ho hapart
  refine ⟨hs, _, _, t, t', u, hr, ho, hapart, hmove, hpurge, hpurge', hmove', ?_⟩
  have hfirst : t = ((engine.submit (.move "1" "p" "/c/d")).run s).2 :=
    (congrArg Prod.snd hmove).symm
  have hboth : u = ((engine.submit (.purge "3" false)).run t).2 := (congrArg Prod.snd hpurge).symm
  rw [hboth, hfirst]
  rfl

end ResourceIndex.Store
