import ResourceIndex.Proofs.Store.Descendants
import ResourceIndex.Proofs.Store.Independence
import ResourceIndex.Proofs.Store.Move
/-
Moves to free places. When nothing else lies below the new place, a move back finds the subtree
that has come there, and no other documents, so it undoes the move. When no live document that
stays behind lies at the new place or below, a move keeps the paths of live documents apart.
-/
namespace ResourceIndex.Store

variable {s : Store} {root d e : Resource} {parentId location : String}

/-- A document of the subtree keeps what its path has behind the path of the root. -/
theorem exists_rest_of_mem_subtree (hs : s.WellFormed) (hr : root ∈ s.docs)
    (hd : d ∈ s.subtree root) (parentId location : String) :
    ∃ rest, d.path = root.path ++ rest ∧
      (relocation root parentId location d).path = Path.normalize location ++ rest := by
  rcases List.mem_cons.mp hd with rfl | hbelow
  · refine ⟨"", String.append_empty.symm, ?_⟩
    rw [relocation_root, String.append_empty]
    rfl
  · obtain ⟨rest, hpath, -, hmoved⟩ :=
      relocation_of_mem_below hs hr hbelow parentId location
    exact ⟨rest, hpath, by rw [hmoved]⟩

/-- Two documents of the subtree have one path after a move exactly if they had one before. -/
theorem path_relocation_inj (hs : s.WellFormed) (hr : root ∈ s.docs) (hd : d ∈ s.subtree root)
    (he : e ∈ s.subtree root) (parentId location : String) :
    (relocation root parentId location d).path = (relocation root parentId location e).path ↔
      d.path = e.path := by
  obtain ⟨rest, hold, hnew⟩ := exists_rest_of_mem_subtree hs hr hd parentId location
  obtain ⟨rest', hold', hnew'⟩ := exists_rest_of_mem_subtree hs hr he parentId location
  rw [hold, hold', hnew, hnew', String.append_right_inj, String.append_right_inj]

theorem relocation_deleted (root : Resource) (parentId location : String) (d : Resource) :
    (relocation root parentId location d).deleted = d.deleted := by
  unfold relocation
  split
  · rfl
  · rfl

/-! ### The way back -/

/-- A document after a move has come with the subtree, or stayed as it was. -/
theorem mem_cascaded_move_iff (hr : root ∈ s.docs) :
    e ∈ (s.cascaded root (.move parentId location)).docs ↔
      (∃ d ∈ s.subtree root, relocation root parentId location d = e) ∨
        e ∈ s.docs ∧ e ∉ s.subtree root := by
  rw [mem_cascaded_iff]
  constructor
  · rintro ⟨d, hd, hout⟩
    by_cases hmem : d ∈ s.subtree root
    · exact .inl ⟨d, hmem, Option.some.inj ((if_pos hmem).symm.trans hout)⟩
    · cases (if_neg hmem).symm.trans hout
      exact .inr ⟨hd, hmem⟩
  · rintro (⟨d, hd, rfl⟩ | ⟨he, hstays⟩)
    · exact ⟨d, mem_docs_of_mem_subtree hr d hd, if_pos hd⟩
    · exact ⟨e, he, if_neg hstays⟩

theorem relocation_mem_docs (hr : root ∈ s.docs) (hd : d ∈ s.subtree root)
    (parentId location : String) :
    relocation root parentId location d ∈ (s.cascaded root (.move parentId location)).docs :=
  (mem_cascaded_move_iff hr).mpr (.inl ⟨d, hd, rfl⟩)

/-- What was found below the root is found below it at the new place. -/
theorem relocation_mem_below (hs : s.WellFormed) (hr : root ∈ s.docs) (hd : d ∈ s.below root)
    (parentId location : String) :
    relocation root parentId location d ∈ (s.cascaded root (.move parentId location)).below
      (relocation root parentId location root) := by
  obtain ⟨hcontainer, hspace, u, hu, hline⟩ := (mem_below_iff_foundBelow.mp hd).2
  obtain ⟨rest, hpath, -, hmoved⟩ := relocation_of_mem_below hs hr hd parentId location
  have hrest : rest.toList = '/' :: u := by
    rw [hpath, String.toList_append] at hu
    exact List.append_cancel_left hu
  refine mem_below_iff_foundBelow.mpr
    ⟨relocation_mem_docs hr (List.mem_cons_of_mem root hd) parentId location, ?_⟩
  rw [relocation_root, hmoved]
  refine ⟨hcontainer, hspace, u, ?_, hline⟩
  change (Path.normalize location ++ rest).toList = (Path.normalize location).toList ++ '/' :: u
  rw [String.toList_append, hrest]

/-- The subtree that the root has at the new place: it lost nothing, and if the place was free, it
took nothing in. -/
theorem mem_subtree_cascaded_move_iff (hs : s.WellFormed) (hr : root ∈ s.docs)
    (hfree : ∀ d, s.StrictlyBelow root.rootId (Path.normalize location) d → d ∈ s.subtree root) :
    e ∈ (s.cascaded root (.move parentId location)).subtree
        (relocation root parentId location root) ↔
      e ∈ (s.subtree root).map (relocation root parentId location) := by
  rw [subtree, subtree, List.map_cons, List.mem_cons, List.mem_cons, List.mem_map]
  refine or_congr_right ?_
  constructor
  · intro hbelow
    rcases (mem_cascaded_move_iff hr).mp (mem_docs_of_mem_below hbelow) with
      ⟨d, hmem, rfl⟩ | ⟨he, hstays⟩
    · rcases List.mem_cons.mp hmem with rfl | hd
      · exact absurd hbelow root_notMem_below
      · exact ⟨d, hd, rfl⟩
    · -- a document that stayed behind would have been below the place before
      obtain ⟨-, hspace, u, hu, -⟩ := (mem_below_iff_foundBelow.mp hbelow).2
      rw [relocation_rootId] at hspace
      rw [relocation_root] at hu
      obtain ⟨hwithin, hne⟩ := (Path.isWithin_and_ne_iff (hs.paths e he)
        (Path.normalize_normalize location)).mpr ⟨u, hu⟩
      exact absurd (hfree e ⟨he, hspace, hwithin, hne⟩) hstays
  · rintro ⟨d, hd, rfl⟩
    exact relocation_mem_below hs hr hd parentId location

/-- Document by document, a move back takes away what the move did. -/
theorem relocation_relocation (hs : s.WellFormed) (hr : root ∈ s.docs)
    (hname : root.document.name = Path.baseName root.path) (hd : d ∈ s.subtree root)
    (parentId location : String) :
    relocation (relocation root parentId location root) root.parentId root.path
      (relocation root parentId location d) = d := by
  have hroot : Path.normalize root.path = root.path := hs.paths root hr
  rcases List.mem_cons.mp hd with rfl | hbelow
  · rw [relocation_root, relocation_root]
    simp only [Resource.relocate, hroot, ← hname]
  · obtain ⟨rest, hpath, -, hthere⟩ := relocation_of_mem_below hs hr hbelow parentId location
    obtain ⟨rest', hpath', -, hback⟩ :=
      relocation_of_mem_below (hs.cascaded hr (.move parentId location))
        (relocation_mem_docs hr List.mem_cons_self parentId location)
        (relocation_mem_below hs hr hbelow parentId location) root.parentId root.path
    have hrest : rest = rest' := by
      rw [hthere, relocation_root] at hpath'
      exact (String.append_right_inj _).mp hpath'
    rw [hback, hthere, ← hrest, hroot, ← hpath]

theorem cascaded_move_move (hs : s.WellFormed) (hr : root ∈ s.docs)
    (hname : root.document.name = Path.baseName root.path)
    (hfree : ∀ d, s.StrictlyBelow root.rootId (Path.normalize location) d → d ∈ s.subtree root) :
    (s.cascaded root (.move parentId location)).cascaded (relocation root parentId location root)
      (.move root.parentId root.path) = s := by
  let there := relocation root parentId location
  let back := relocation (there root) root.parentId root.path
  have hdocs := mem_docs_of_mem_subtree hr
  calc (s.rewrite (s.subtree root) there).rewrite
        ((s.rewrite (s.subtree root) there).subtree (there root)) back
      = (s.rewrite (s.subtree root) there).rewrite ((s.subtree root).map there) back :=
        rewrite_congr fun d => mem_subtree_cascaded_move_iff hs hr hfree
    _ = s.rewrite (s.subtree root) (back ∘ there) :=
        rewrite_rewrite hs.ids (relocation_id root parentId location) hdocs
    _ = s := by
        have hsame : ∀ d ∈ s.docs, (if d ∈ s.subtree root then (back ∘ there) d else d) = d := by
          intro d hd
          split
          · rename_i hmem
            exact relocation_relocation hs hr hname hmem parentId location
          · rfl
        rw [rewrite, List.map_congr_left hsame, List.map_id']

/-- A move to a place below which nothing else lies is undone by a move back, if the root was
named by its path and all below it can be looked up at both places. At a place where this is not so,
a move fails and does nothing. -/
theorem move_there_and_back [RegexBuilder] (hs : s.Reachable) {id : String}
    (hr : s.get? id = some root)
    (hname : root.document.name = Path.baseName root.path) (parentId location : String)
    (hfree : ∀ d, s.StrictlyBelow root.rootId (Path.normalize location) d →
      d ∈ root :: s.below root) :
    let there := { root with path := Path.normalize location }
    let move := engine.submit (.move id parentId location)
    let back := engine.submit (.move id root.parentId root.path)
    (lookupFault? root = none → lookupFault? there = none →
      (do move; back : Action Store Unit).run s = (.ok (), s)) ∧
    (∀ e, lookupFault? root = some e → (do move; back : Action Store Unit).run s = (.error e, s)) ∧
    ∀ e, lookupFault? root = none → lookupFault? there = some e →
      ∃ t, move.run s = (.ok (), t) ∧ back.run t = (.error e, t) := by
  intro there move back
  have hwf := hs.wellFormed
  obtain ⟨hmem, rfl⟩ := mem_and_id_eq_of_get? hr
  have hmoved : (s.cascaded root (.move parentId location)).get? root.id =
      some (relocation root parentId location root) :=
    get?_cascaded_move hwf.ids hmem parentId location List.mem_cons_self
  have hplace : lookupFault? (relocation root parentId location root) = lookupFault? there := by
    rw [relocation_root]
    exact lookupFault?_congr rfl rfl
  have hmove : lookupFault? root = none →
      move.run s = (.ok (), s.cascaded root (.move parentId location)) :=
    fun hlookup => run_submit_of_get? hwf.ids hr hlookup
  refine ⟨fun hlookup hthere => ?_, fun e hlookup => ?_, fun e hlookup hthere => ?_⟩
  · have hback : back.run (s.cascaded root (.move parentId location)) =
        (.ok (), (s.cascaded root (.move parentId location)).cascaded
          (relocation root parentId location root) (.move root.parentId root.path)) :=
      run_submit_of_get? (hwf.cascaded hmem _).ids hmoved (hplace.trans hthere)
    rw [Action.run_bind, hmove hlookup]
    exact hback.trans (by rw [cascaded_move_move hwf hmem hname hfree])
  · have hfail : move.run s = (.error e, s) := run_submit_of_lookupFault hr hlookup
    rw [Action.run_bind, hfail]
  · exact ⟨_, hmove hlookup, run_submit_of_lookupFault hmoved (hplace.trans hthere)⟩

/-- A folder goes into itself and back. Its name begins that of a file beside it, and a file of
another space lies below the place where it goes. -/
theorem move_into_own_subtree_and_back :
    let folder : Resource := ⟨"1", "r", "./a", "p", .container, false, false,
      { Document.empty with name := "a" }⟩
    let s : Store := ⟨[folder, .bare "2" "r" "./a/a/x", .bare "3" "r" "./ab",
      .bare "4" "q" "./a/a/y"]⟩
    s.Reachable ∧ s.get? "1" = some folder ∧
      folder.document.name = Path.baseName folder.path ∧
      (∀ d, s.StrictlyBelow folder.rootId (Path.normalize "/a/a") d →
        d ∈ folder :: s.below folder) ∧
      ((engine.submit (.move "1" "2" "/a/a")).run s).2.docs.map (·.path) =
        ["./a/a", "./a/a/a/x", "./ab", "./a/a/y"] ∧
      (do engine.submit (.move "1" "2" "/a/a")
          engine.submit (.move "1" "p" "./a") : Action Store Unit).run s = (.ok (), s) := by
  intro folder s
  have hs : s.Reachable := (((Reachable.empty.put "1" ⟨"", "r", "/a/", "p", .container, false,
    false, { Document.empty with name := "a" }⟩).put "2" (.bare "" "r" "a/./a/x")).put "3"
    (.bare "" "r" "/ab")).put "4" (.bare "" "q" "/a/a/y")
  have hr : s.get? "1" = some folder := rfl
  have hname : folder.document.name = Path.baseName folder.path := by decide
  have hbelow : ∀ d ∈ s.docs, d.rootId = "r" → Path.isWithin d.path "./a/a" = true →
      d ∈ folder :: s.below folder := by decide
  have hfree : ∀ d, s.StrictlyBelow folder.rootId (Path.normalize "/a/a") d →
      d ∈ folder :: s.below folder := fun d hd => hbelow d hd.stored hd.space hd.within
  exact ⟨hs, hr, hname, hfree, by decide,
    (move_there_and_back hs hr hname "2" "/a/a" hfree).1 (by decide) (by decide)⟩

/-! ### Paths of live documents -/

/-- No two live documents of a space have the same path. -/
def LivePathsUnique (s : Store) : Prop :=
  ∀ d ∈ s.docs, ∀ e ∈ s.docs, d.deleted = false → e.deleted = false → d.rootId = e.rootId →
    d.path = e.path → d = e

theorem rootId_of_mem_subtree (hd : d ∈ s.subtree root) : d.rootId = root.rootId := by
  rcases List.mem_cons.mp hd with rfl | hbelow
  · rfl
  · exact (mem_below_iff_foundBelow.mp hbelow).2.space

/-- After a move the paths of live documents differ, if they did before, exactly if no document of
the subtree has come to the path of one that stayed behind. -/
theorem livePathsUnique_cascaded_move_iff (hs : s.WellFormed) (hr : root ∈ s.docs)
    (hu : s.LivePathsUnique) (parentId location : String) :
    (s.cascaded root (.move parentId location)).LivePathsUnique ↔
      ∀ d ∈ s.subtree root, ∀ e ∈ s.docs, e ∉ s.subtree root → d.deleted = false →
        e.deleted = false → e.rootId = root.rootId →
        (relocation root parentId location d).path ≠ e.path := by
  constructor
  · intro hunique d hd e he hstays hlive hlive' hspace hsame
    have hmoved := relocation_mem_docs hr hd parentId location
    have hkept : e ∈ (s.cascaded root (.move parentId location)).docs :=
      (mem_cascaded_move_iff hr).mpr (.inr ⟨he, hstays⟩)
    have heq : relocation root parentId location d = e := by
      refine hunique _ hmoved e hkept ?_ hlive' ?_ hsame
      · rwa [relocation_deleted]
      · rw [relocation_rootId, rootId_of_mem_subtree hd, hspace]
    have hid : d.id = e.id := by rw [← relocation_id root parentId location d, heq]
    exact hstays (hs.ids.eq_of_id_eq (mem_docs_of_mem_subtree hr d hd) he hid ▸ hd)
  · intro hclear d' hd' e' he' hlive hlive' hspace hsame
    rcases (mem_cascaded_move_iff hr).mp hd' with ⟨d, hmem, rfl⟩ | ⟨hd, hstays⟩
    · rw [relocation_deleted] at hlive
      rw [relocation_rootId, rootId_of_mem_subtree hmem] at hspace
      rcases (mem_cascaded_move_iff hr).mp he' with ⟨e, hmem', rfl⟩ | ⟨he, hstays⟩
      · rw [relocation_deleted] at hlive'
        rw [path_relocation_inj hs hr hmem hmem'] at hsame
        have hrootId := (rootId_of_mem_subtree hmem).trans (rootId_of_mem_subtree hmem').symm
        rw [hu d (mem_docs_of_mem_subtree hr d hmem) e (mem_docs_of_mem_subtree hr e hmem')
          hlive hlive' hrootId hsame]
      · exact absurd hsame (hclear d hmem e' he hstays hlive hlive' hspace.symm)
    · rcases (mem_cascaded_move_iff hr).mp he' with ⟨e, hmem', rfl⟩ | ⟨he, -⟩
      · rw [relocation_deleted] at hlive'
        rw [relocation_rootId, rootId_of_mem_subtree hmem'] at hspace
        exact absurd hsame.symm (hclear e hmem' d' hd hstays hlive' hlive hspace)
      · exact hu d' hd e' he hlive hlive' hspace hsame

/-- A move keeps the paths of live documents apart, if no live document that it leaves behind lies
at the new place or below. -/
theorem move_keeps_live_paths_unique [RegexBuilder] (hs : s.Reachable) (hu : s.LivePathsUnique)
    {id : String}
    (hr : s.get? id = some root) (parentId location : String)
    (hfree : ∀ d ∈ s.docs, d ∉ root :: s.below root → d.deleted = false →
      d.rootId = root.rootId → Path.isWithin d.path (Path.normalize location) = false) :
    ∃ t, (engine.submit (.move id parentId location)).run s = (verdict root, t) ∧
      t.LivePathsUnique := by
  have hwf := hs.wellFormed
  have hmem : root ∈ s.docs := (mem_and_id_eq_of_get? hr).1
  refine ⟨_, run_submit_eq_attempted hwf.ids hr, ?_⟩
  rw [attempted]
  split
  case isFalse => exact hu
  refine (livePathsUnique_cascaded_move_iff hwf hmem hu parentId location).mpr ?_
  intro d hd e he hstays _ hlive hspace hsame
  have hwithin := isWithin_relocation hwf hmem hd parentId location
  rw [hsame, hfree e he hstays hlive hspace] at hwithin
  exact Bool.false_ne_true hwithin

/-- A folder takes the path of a file of its own. A file of another space has that path as well,
and a trashed folder has the path that the live one leaves. -/
theorem move_onto_own_file_keeps_live_paths_unique :
    let folder : Resource := ⟨"1", "r", "./a", "", .container, false, false, .empty⟩
    let s : Store := ⟨[folder, .bare "2" "r" "./a/x", .bare "3" "q" "./a/x",
      ⟨"4", "r", "./a", "", .container, true, false, .empty⟩]⟩
    s.Reachable ∧ s.LivePathsUnique ∧ s.get? "1" = some folder ∧
      (∀ d ∈ s.docs, d ∉ folder :: s.below folder → d.deleted = false →
        d.rootId = folder.rootId → Path.isWithin d.path (Path.normalize "/a/x") = false) ∧
      ∃ t, (engine.submit (.move "1" "4" "/a/x")).run s = (.ok (), t) ∧ t.LivePathsUnique ∧
        t.docs.map (·.path) = ["./a/x", "./a/x/x", "./a/x", "./a"] := by
  intro folder s
  have hs : s.Reachable := (((Reachable.empty.put "1"
    ⟨"", "r", "/a", "", .container, false, false, .empty⟩).put "2" (.bare "" "r" "/a/x")).put "3"
    (.bare "" "q" "/a/x")).put "4" ⟨"", "r", "/a", "", .container, true, false, .empty⟩
  have hu : s.LivePathsUnique := by
    unfold LivePathsUnique
    decide
  have hr : s.get? "1" = some folder := rfl
  have hfree : ∀ d ∈ s.docs, d ∉ folder :: s.below folder → d.deleted = false →
      d.rootId = folder.rootId → Path.isWithin d.path (Path.normalize "/a/x") = false := by decide
  obtain ⟨t, hrun, ht⟩ := move_keeps_live_paths_unique hs hu hr "4" "/a/x" hfree
  have hverdict : verdict folder = .ok () := by decide
  rw [hverdict] at hrun
  refine ⟨hs, hu, hr, hfree, t, hrun, ht, ?_⟩
  have hpaths : ((engine.submit (.move "1" "4" "/a/x")).run s).2.docs.map (·.path) =
    ["./a/x", "./a/x/x", "./a/x", "./a"] := by decide
  rwa [hrun] at hpaths

end ResourceIndex.Store
