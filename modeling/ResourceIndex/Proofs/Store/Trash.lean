import ResourceIndex.Proofs.Store.Reachable
/-
Soft deletion, restoring and purging. Marking a subtree does not change what it consists of, so
the last mark counts, and a purge finds what a deletion has marked.
-/
namespace ResourceIndex.Store

variable {s : Store} {root : Resource}

theorem keepsPlace_marked (deleted : Bool) : KeepsPlace (marked deleted) :=
  ⟨fun _ => rfl, fun _ => rfl, fun _ => rfl, fun _ => rfl⟩

theorem cascaded_setDeleted_setDeleted (hs : s.IdsUnique) (hr : root ∈ s.docs)
    (first second : Bool) :
    (s.cascaded root (.setDeleted first)).cascaded (marked first root) (.setDeleted second) =
      s.cascaded root (.setDeleted second) := by
  have hfirst := keepsPlace_marked first
  have hdocs := mem_docs_of_mem_subtree hr
  calc (s.rewrite (s.subtree root) (marked first)).rewrite
        ((s.rewrite (s.subtree root) (marked first)).subtree (marked first root)) (marked second)
      = (s.rewrite (s.subtree root) (marked first)).rewrite
          ((s.subtree root).map (marked first)) (marked second) := by rw [subtree_rewrite hfirst]
    _ = s.rewrite (s.subtree root) (marked second ∘ marked first) :=
        rewrite_rewrite hs hfirst.id hdocs
    _ = s.rewrite (s.subtree root) (marked second) := rfl

theorem cascaded_purge_all : s.cascaded root (.purge false) = s.without (s.subtree root) := by
  have hall : (s.subtree root).filter (fun d => !false || d.deleted) = s.subtree root :=
    List.filter_eq_self.mpr fun _ _ => rfl
  rw [cascaded, hall]

theorem cascaded_purge_deleted :
    s.cascaded root (.purge true) =
      ⟨s.docs.filter fun d => ¬ (d ∈ root :: s.below root ∧ d.deleted = true)⟩ := by
  rw [cascaded, without, Store.mk.injEq]
  apply List.filter_congr
  intro d hd
  rw [decide_eq_decide, not_iff_not, List.mem_filter]
  rfl

theorem cascaded_purge_of_live (hlive : ∀ d ∈ root :: s.below root, d.deleted = false) :
    s.cascaded root (.purge true) = s := by
  rw [cascaded_purge_deleted, List.filter_eq_self.mpr]
  intro d hd
  apply decide_eq_true
  rintro ⟨hmem, hdel⟩
  rw [hlive d hmem] at hdel
  exact Bool.false_ne_true hdel

theorem cascaded_setDeleted_purge (hs : s.IdsUnique) (hr : root ∈ s.docs) :
    (s.cascaded root (.setDeleted true)).cascaded (marked true root) (.purge true) =
      s.cascaded root (.purge false) := by
  have hmark := keepsPlace_marked true
  have hdocs := mem_docs_of_mem_subtree hr
  have hall : ((s.subtree root).map (marked true)).filter (fun d => !true || d.deleted) =
      (s.subtree root).map (marked true) := by
    apply List.filter_eq_self.mpr
    intro d hd
    obtain ⟨e, he, rfl⟩ := List.mem_map.mp hd
    rfl
  calc (s.rewrite (s.subtree root) (marked true)).without
        (((s.rewrite (s.subtree root) (marked true)).subtree (marked true root)).filter
          fun d => !true || d.deleted)
      = (s.rewrite (s.subtree root) (marked true)).without
          ((s.subtree root).map (marked true)) := by rw [subtree_rewrite hmark, hall]
    _ = s.without (s.subtree root) := without_rewrite hs hmark.id hdocs
    _ = s.cascaded root (.purge false) := cascaded_purge_all.symm

/-- After a mark, an operation does what another does without the mark, if it does so to the
documents. An id that stands for no document fails either way, and so does a root below which
nothing can be looked up. -/
theorem run_submit_setDeleted_then [RegexBuilder] (hs : s.IdsUnique) (id : String) {deleted : Bool}
    {action other : CascadeAction}
    (h : ∀ root ∈ s.docs, (s.cascaded root (.setDeleted deleted)).cascaded (marked deleted root)
      action = s.cascaded root other) :
    (do engine.submit (.cascade ⟨id, .setDeleted deleted⟩)
        engine.submit (.cascade ⟨id, action⟩) : Action Store Unit).run s =
      (engine.submit (.cascade ⟨id, other⟩)).run s := by
  rw [Action.run_bind]
  cases hr : s.get? id with
  | none =>
    have hfail : ∀ c : Cascade, c.id = id →
        (engine.submit (.cascade c)).run s = (.error (.notFound id), s) := by
      rintro c rfl
      rw [run_submit_cascade, cascade_of_get?_eq_none hr]
    rw [hfail _ rfl, hfail _ rfl]
  | some root =>
    obtain ⟨hmem, rfl⟩ := mem_and_id_eq_of_get? hr
    have hmark := keepsPlace_marked deleted
    have hget : (s.cascaded root (.setDeleted deleted)).get? root.id =
        some (marked deleted root) :=
      get?_rewrite_of_mem hs hmark.id (mem_docs_of_mem_subtree hmem) List.mem_cons_self
    have hunique : (s.cascaded root (.setDeleted deleted)).IdsUnique := hs.rewrite hmark.id
    cases hlookup : lookupFault? root with
    | none =>
      have hagain : lookupFault? (marked deleted root) = none :=
        (lookupFault?_congr rfl rfl).trans hlookup
      rw [run_submit_of_get? hs hr hlookup, run_submit_of_get? hs hr hlookup]
      exact (run_submit_of_get? hunique hget hagain).trans (by rw [h root hmem])
    | some e =>
      rw [run_submit_of_lookupFault hr hlookup, run_submit_of_lookupFault hr hlookup]

/-- What the operations do to the document of an id and to those below it, if these can be looked
up, and how they follow one another. -/
theorem trash_exact [RegexBuilder] (hs : s.Reachable) (id : String) :
    (∀ root, s.get? id = some root → lookupFault? root = none →
      (engine.submit (.delete id)).run s = (.ok (), ⟨s.docs.map fun d =>
        if d ∈ root :: s.below root then { d with deleted := true } else d⟩) ∧
      (engine.submit (.restore id)).run s = (.ok (), ⟨s.docs.map fun d =>
        if d ∈ root :: s.below root then { d with deleted := false } else d⟩) ∧
      (engine.submit (.purge id true)).run s = (.ok (), ⟨s.docs.filter fun d =>
        ¬ (d ∈ root :: s.below root ∧ d.deleted = true)⟩) ∧
      (engine.submit (.purge id false)).run s = (.ok (), ⟨s.docs.filter fun d =>
        d ∉ root :: s.below root⟩) ∧
      ((∀ d ∈ root :: s.below root, d.deleted = false) →
        (engine.submit (.purge id true)).run s = (.ok (), s))) ∧
    (∀ root e, s.get? id = some root → lookupFault? root = some e →
      (engine.submit (.delete id)).run s = (.error e, s) ∧
      (engine.submit (.restore id)).run s = (.error e, s) ∧
      ∀ onlyDeleted, (engine.submit (.purge id onlyDeleted)).run s = (.error e, s)) ∧
    (do engine.submit (.delete id); engine.submit (.delete id) : Action Store Unit).run s =
      (engine.submit (.delete id)).run s ∧
    (do engine.submit (.delete id); engine.submit (.restore id) : Action Store Unit).run s =
      (engine.submit (.restore id)).run s ∧
    (do engine.submit (.restore id); engine.submit (.delete id) : Action Store Unit).run s =
      (engine.submit (.delete id)).run s ∧
    (do engine.submit (.delete id); engine.submit (.purge id true) : Action Store Unit).run s =
      (engine.submit (.purge id false)).run s := by
  have hids := hs.wellFormed.ids
  refine ⟨?_, ?_, ?_, ?_, ?_, ?_⟩
  · intro root hr hlookup
    have hrun : ∀ action, (engine.submit (.cascade ⟨id, action⟩)).run s =
        (.ok (), s.cascaded root action) := fun action => run_submit_of_get? hids hr hlookup
    refine ⟨hrun _, hrun _, ?_, ?_, ?_⟩
    · rw [← cascaded_purge_deleted]
      exact hrun _
    · exact (hrun _).trans (congrArg _ cascaded_purge_all)
    · exact fun hlive => (hrun _).trans (congrArg _ (cascaded_purge_of_live hlive))
  · intro root e hr hlookup
    have hrun : ∀ action, (engine.submit (.cascade ⟨id, action⟩)).run s = (.error e, s) :=
      fun action => run_submit_of_lookupFault hr hlookup
    exact ⟨hrun _, hrun _, fun onlyDeleted => hrun _⟩
  · exact run_submit_setDeleted_then hids id fun root hr =>
      cascaded_setDeleted_setDeleted hids hr true true
  · exact run_submit_setDeleted_then hids id fun root hr =>
      cascaded_setDeleted_setDeleted hids hr true false
  · exact run_submit_setDeleted_then hids id fun root hr =>
      cascaded_setDeleted_setDeleted hids hr false true
  · exact run_submit_setDeleted_then hids id fun root hr => cascaded_setDeleted_purge hids hr

/-- A live folder holds a deleted file and a live one; a path of another space looks like theirs. -/
theorem purge_after_delete_of_mixed :
    let s : Store := ⟨[⟨"1", "r", "./a", "", .container, false, false, .empty⟩,
      ⟨"2", "r", "./a/x", "", .file, true, false, .empty⟩, .bare "3" "r" "./a/b/y",
      ⟨"4", "q", "./a/x", "", .file, true, false, .empty⟩]⟩
    s.Reachable ∧
      ((engine.submit (.purge "1" true)).run s).2.docs.map (·.id) = ["1", "3", "4"] ∧
      (do engine.submit (.delete "1"); engine.submit (.purge "1" true) : Action Store Unit).run s =
        (.ok (), ⟨[⟨"4", "q", "./a/x", "", .file, true, false, .empty⟩]⟩) := by
  intro s
  have hs : s.Reachable := (((Reachable.empty.put "1"
    ⟨"", "r", "/a", "", .container, false, false, .empty⟩).put "2"
    ⟨"", "r", "/a/x", "", .file, true, false, .empty⟩).put "3" (.bare "" "r" "/a/b/y")).put "4"
    ⟨"", "q", "/a/x", "", .file, true, false, .empty⟩
  obtain ⟨hexact, -, -, -, -, hpurge⟩ := trash_exact hs "1"
  obtain ⟨-, -, hdeleted, -, -⟩ := hexact _ rfl rfl
  refine ⟨hs, ?_, ?_⟩
  · rw [hdeleted]
    rfl
  · rw [hpurge]
    rfl

end ResourceIndex.Store
