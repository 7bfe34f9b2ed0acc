import ResourceIndex.Proofs.Store.Reachable
/-
What a move does to a reachable store. The root gets its new parent, path and name, the documents
below it get the new path in front of what is their own, and all else stays.
-/
namespace ResourceIndex.Store

variable {s : Store} {root : Resource}

/-- From `s` to `t` the root went to a location below a parent, and its subtree went with it. -/
structure Moved (s t : Store) (root : Resource) (parentId location : String) : Prop where
  place : t.get? root.id = some
    { root with
      parentId := parentId
      path := Path.normalize location
      document := { root.document with name := Path.baseName (Path.normalize location) } }
  rewritten : ∀ d ∈ s.below root, ∃ rest, d.path = root.path ++ rest ∧
    t.get? d.id = some { d with path := Path.normalize location ++ rest }
  /-- No document below the root has a path that cannot be rewritten. -/
  rebased : ∀ d ∈ s.below root,
    (Path.rebase? d.path root.path (Path.normalize location)).isSome = true
  others : ∀ id, id ≠ root.id → (∀ d ∈ s.below root, d.id ≠ id) → t.get? id = s.get? id
  ids : t.docs.map (·.id) = s.docs.map (·.id)
  canonical : ∀ d ∈ root :: s.below root, ∀ d', t.get? d.id = some d' →
    Path.normalize d'.path = d'.path ∧ Path.isWithin d'.path (Path.normalize location) = true
  scopes : ∀ d ∈ root :: s.below root, ∀ e ∈ root :: s.below root,
    ∀ d' e', t.get? d.id = some d' → t.get? e.id = some e' →
      Path.isWithin d'.path e'.path = Path.isWithin d.path e.path
  /-- The store does not depend on the order in which the documents below were found. -/
  unordered : ∀ ds, ds.Perm (s.below root) →
    s.writeAll (cascadeWrites root ds (.move parentId location)) = t

theorem get?_cascaded_move (hs : s.IdsUnique) (hr : root ∈ s.docs) (parentId location : String)
    {d : Resource} (hd : d ∈ s.subtree root) :
    (s.cascaded root (.move parentId location)).get? d.id =
      some (relocation root parentId location d) :=
  get?_rewrite_of_mem hs (relocation_id root parentId location) (mem_docs_of_mem_subtree hr) hd

theorem moved_cascaded (hs : s.WellFormed) (hr : root ∈ s.docs) (parentId location : String) :
    Moved s (s.cascaded root (.move parentId location)) root parentId location := by
  have hid := relocation_id root parentId location
  have hget : ∀ d ∈ s.subtree root, (s.cascaded root (.move parentId location)).get? d.id =
      some (relocation root parentId location d) := fun d hd =>
    get?_cascaded_move hs.ids hr parentId location hd
  constructor
  case place =>
    rw [hget root List.mem_cons_self, relocation_root]
    rfl
  case rewritten =>
    intro d hd
    obtain ⟨rest, hpath, -, hmoved⟩ := relocation_of_mem_below hs hr hd parentId location
    refine ⟨rest, hpath, ?_⟩
    rw [hget d (List.mem_cons_of_mem root hd), hmoved]
  case rebased =>
    intro d hd
    obtain ⟨rest, -, hrebase, -⟩ := relocation_of_mem_below hs hr hd parentId location
    rw [hrebase, Option.isSome_some]
  case others =>
    intro id hroot hbelow
    apply get?_rewrite_of_ne hid
    intro d hd
    rcases List.mem_cons.mp hd with rfl | hd
    · exact hroot.symm
    · exact hbelow d hd
  case ids => exact ids_rewrite hid
  case canonical =>
    intro d hd d' hd'
    cases Option.some.inj (hd'.symm.trans (hget d hd))
    exact ⟨normalize_relocation hs hr hd parentId location,
      isWithin_relocation hs hr hd parentId location⟩
  case scopes =>
    intro d hd e he d' e' hd' he'
    cases Option.some.inj (hd'.symm.trans (hget d hd))
    cases Option.some.inj (he'.symm.trans (hget e he))
    rw [Bool.eq_iff_iff]
    exact isWithin_relocation_iff hs hr hd he parentId location
  case unordered => exact fun ds hds => writeAll_cascadeWrites hs.ids hr hds _

/-- A move of a stored document moves the subtree, and nothing else. It fails, and does nothing,
only if what lies below the document cannot be looked up. -/
theorem move_exact [RegexBuilder] (hs : s.Reachable) {id : String} (hr : s.get? id = some root)
    (parentId location : String) :
    (lookupFault? root = none →
      ∃ t, (engine.submit (.move id parentId location)).run s = (.ok (), t) ∧
        Moved s t root parentId location) ∧
      ∀ e, lookupFault? root = some e →
        (engine.submit (.move id parentId location)).run s = (.error e, s) := by
  have hwf := hs.wellFormed
  refine ⟨fun hlookup => ⟨s.cascaded root (.move parentId location), ?_, ?_⟩, ?_⟩
  · exact run_submit_of_get? hwf.ids hr hlookup
  · exact moved_cascaded hwf (mem_and_id_eq_of_get? hr).1 parentId location
  · exact fun e hlookup => run_submit_of_lookupFault hr hlookup

/-- A folder goes into itself, beside a file whose name begins with the folder's and a file of
another space with a path below the folder's. -/
theorem move_into_own_subtree :
    let s : Store := ⟨[⟨"1", "r", "./a", "", .container, false, false, .empty⟩,
      .bare "2" "r" "./a/a/x", .bare "3" "r" "./ab", .bare "4" "q" "./a/x"]⟩
    s.Reachable ∧ ∃ folder t, s.get? "1" = some folder ∧ lookupFault? folder = none ∧
      (engine.submit (.move "1" "2" "/a/a")).run s = (.ok (), t) ∧ Moved s t folder "2" "/a/a" ∧
      t.docs.map (·.path) = ["./a/a", "./a/a/a/x", "./ab", "./a/x"] := by
  intro s
  have hs : s.Reachable := (((Reachable.empty.put "1"
    ⟨"", "r", "/a/", "", .container, false, false, .empty⟩).put "2"
    (.bare "" "r" "a/./a/x")).put "3" (.bare "" "r" "/ab")).put "4" (.bare "" "q" "./a/x")
  have hfolder : s.get? "1" = some ⟨"1", "r", "./a", "", .container, false, false, .empty⟩ := rfl
  have hlookup : lookupFault? ⟨"1", "r", "./a", "", .container, false, false, .empty⟩ = none := rfl
  obtain ⟨t, hrun, hmoved⟩ := (move_exact hs hfolder "2" "/a/a").1 hlookup
  refine ⟨hs, _, t, hfolder, hlookup, hrun, hmoved, ?_⟩
  have hpaths : (((engine.submit (.move "1" "2" "/a/a")).run s).2.docs.map (·.path)) =
    ["./a/a", "./a/a/a/x", "./ab", "./a/x"] := rfl
  rwa [hrun] at hpaths

end ResourceIndex.Store
