import ResourceIndex.Cluster.Meaning
import ResourceIndex.Proofs.Path.Rebasing
import ResourceIndex.Proofs.Store.Relocation
/-
Subtree operations of the cluster beside those of the store. Of a container the cluster also takes
what else is stored at its path, and what a line feed hides from the store. On the subtree itself
both do the same, so they part exactly where such a document is altered.
-/
namespace ResourceIndex.Cluster

variable {s : Store} {root d : Resource}

theorem mem_pathTree_cons {c : Char} {p t : List Char} :
    p ∈ pathTree (c :: t) ↔ (c = '/' ∧ p = []) ∨ ∃ q ∈ pathTree t, c :: q = p := by
  rw [pathTree]
  split
  · rename_i hc
    simp only [List.mem_cons, List.mem_map, hc, true_and]
  · rename_i hc
    simp only [List.mem_map, hc, false_and, false_or]

/-- A path is in the tree of its own and of all paths that go on behind it with a slash. -/
theorem mem_pathTree_iff {p t : List Char} :
    p ∈ pathTree t ↔ t = p ∨ ∃ u, t = p ++ '/' :: u := by
  induction t generalizing p with
  | nil =>
    rw [pathTree, List.mem_singleton]
    constructor
    · exact fun h => .inl h.symm
    · rintro (h | ⟨u, hu⟩)
      · exact h.symm
      · exact absurd hu.symm (List.append_ne_nil_of_right_ne_nil p (List.cons_ne_nil _ u))
  | cons c t ih =>
    rw [mem_pathTree_cons]
    cases p with
    | nil =>
      constructor
      · rintro (⟨rfl, -⟩ | ⟨q, -, hq⟩)
        · exact .inr ⟨t, rfl⟩
        · cases hq
      · rintro (h | ⟨u, hu⟩)
        · cases h
        · exact .inl ⟨(List.cons.inj hu).1, rfl⟩
    | cons b p =>
      simp only [reduceCtorEq, and_false, false_or, List.cons.injEq, List.cons_append, ih]
      constructor
      · rintro ⟨q, htree, rfl, rfl⟩
        rcases htree with h | ⟨u, hu⟩
        · exact .inl ⟨rfl, h⟩
        · exact .inr ⟨u, rfl, hu⟩
      · rintro (⟨rfl, h⟩ | ⟨u, rfl, hu⟩)
        · exact ⟨p, .inl h, rfl, rfl⟩
        · exact ⟨p, .inr ⟨u, hu⟩, rfl, rfl⟩

/-- Another document that the cluster takes for one of the subtree of a container, though the store
does not. -/
structure Stray (root d : Resource) : Prop where
  container : root.isContainer = true
  other : d.id ≠ root.id
  space : d.rootId = root.rootId
  path : d.path = root.path ∨ ∃ u, d.path.toList = root.path.toList ++ '/' :: u ∧ '\n' ∈ u

theorem exists_line_feed_behind_iff {p t : List Char} :
    (∃ u, t = p ++ '/' :: u ∧ '\n' ∈ u) ↔ p ++ ['/'] <+: t ∧ '\n' ∈ t.drop (p ++ ['/']).length := by
  constructor
  · rintro ⟨u, rfl, hu⟩
    rw [List.append_cons p '/' u, List.drop_left]
    exact ⟨List.prefix_append _ u, hu⟩
  · rintro ⟨⟨u, rfl⟩, hu⟩
    rw [List.drop_left] at hu
    exact ⟨u, (List.append_cons p '/' u).symm, hu⟩

instance (root d : Resource) : Decidable (Stray root d) :=
  decidable_of_iff (root.isContainer = true ∧ d.id ≠ root.id ∧ d.rootId = root.rootId ∧
      (d.path = root.path ∨ root.path.toList ++ ['/'] <+: d.path.toList ∧
        '\n' ∈ d.path.toList.drop (root.path.toList ++ ['/']).length))
    ⟨fun ⟨hc, hid, hspace, hpath⟩ =>
        ⟨hc, hid, hspace, hpath.imp_right exists_line_feed_behind_iff.mpr⟩,
      fun h => ⟨h.container, h.other, h.space, h.path.imp_right exists_line_feed_behind_iff.mp⟩⟩

theorem selects_subtree_of_container (hc : root.isContainer = true) (a : Analyzer) (d : Resource) :
    (subtree root).selects a d = true ↔ d.rootId = root.rootId ∧
      (d.path = root.path ∨ ∃ u, d.path.toList = root.path.toList ++ '/' :: u) := by
  rw [subtree, if_pos hc]
  simp only [Dsl.selects, Dsl.allSelect, Bool.true_and, Bool.and_true, Bool.and_eq_true,
    List.contains_iff_mem, IndexField.valuesOf, List.mem_singleton, mem_pathTree_iff,
    String.toList_inj]
  exact and_congr_left fun _ => eq_comm

theorem selects_subtree_of_file (hc : root.isContainer = false) (a : Analyzer) (d : Resource) :
    (subtree root).selects a d = true ↔ d.id = root.id := by
  rw [subtree, hc, if_neg Bool.false_ne_true, Dsl.selects, List.contains_iff_mem,
    List.mem_singleton]

theorem Stray.notMem_subtree (h : Stray root d) : d ∉ s.subtree root := by
  intro hd
  rcases List.mem_cons.mp hd with rfl | hbelow
  · exact h.other rfl
  · obtain ⟨-, -, u, hu, hfree⟩ := Store.mem_descendants_iff.mp (Store.mem_below_iff.mp hbelow).2
    rcases h.path with hpath | ⟨v, hv, hfeed⟩
    · rw [hpath] at hu
      exact List.cons_ne_nil _ u (List.append_right_eq_self.mp hu.symm)
    · rw [hv, List.append_cancel_left_eq, List.cons.injEq] at hu
      exact hfree (hu.2 ▸ hfeed)

theorem selects_subtree_iff (hs : s.IdsUnique) (hr : root ∈ s.docs) (a : Analyzer)
    (hd : d ∈ s.docs) :
    (subtree root).selects a d = true ↔ d ∈ s.subtree root ∨ Stray root d := by
  have hroot : d = root ↔ d.id = root.id := ⟨congrArg _, hs.eq_of_id_eq hd hr⟩
  rw [Store.subtree, List.mem_cons, Store.mem_below_iff, Store.mem_descendants_iff, hroot]
  cases hc : root.isContainer with
  | false =>
    rw [selects_subtree_of_file hc]
    constructor
    · exact fun hid => .inl (.inl hid)
    · rintro ((hid | ⟨hfalse, -⟩) | hstray)
      · exact hid
      · cases hfalse
      · exact absurd hstray.container (by rw [hc]; exact Bool.false_ne_true)
  | true =>
    rw [selects_subtree_of_container hc]
    constructor
    · rintro ⟨hspace, hpath⟩
      by_cases hid : d.id = root.id
      · exact .inl (.inl hid)
      · rcases hpath with hpath | ⟨u, hu⟩
        · exact .inr ⟨hc, hid, hspace, .inl hpath⟩
        · by_cases hfeed : '\n' ∈ u
          · exact .inr ⟨hc, hid, hspace, .inr ⟨u, hu, hfeed⟩⟩
          · exact .inl (.inr ⟨rfl, hd, hspace, u, hu, hfeed⟩)
    · rintro ((hid | ⟨-, -, hspace, u, hu, -⟩) | hstray)
      · rw [hroot.mpr hid]
        exact ⟨rfl, .inl rfl⟩
      · exact ⟨hspace, .inr ⟨u, hu⟩⟩
      · exact ⟨hstray.space, hstray.path.imp_right (Exists.imp fun _ hu => hu.1)⟩

/-- What starts with the old path and a slash is cut behind the old path, as in a rebasing. -/
theorem Script.movedPath_eq (oldPath newPath path : String) :
    movedPath oldPath newPath path = (Path.rebase? path oldPath newPath).getD path := by
  rw [movedPath]
  split
  · rename_i hsame
    rw [Path.rebase?, if_pos hsame, Option.getD_some]
  · rename_i hother
    split
    · rename_i hstart
      obtain ⟨u, hu⟩ := List.isPrefixOf_iff_prefix.mp hstart
      have hpath : path.toList = oldPath.toList ++ '/' :: u := by
        rw [← hu, String.toList_append, List.append_assoc]
        rfl
      rw [Path.rebase?_of_append newPath hpath, Option.getD_some, hpath, ← String.length_toList,
        List.drop_left]
    · rename_i hstart
      cases hmoved : Path.rebase? path oldPath newPath with
      | none => rfl
      | some moved =>
        obtain ⟨u, hu⟩ := (Path.rebase?_eq_some hmoved).resolve_left hother
        refine absurd (List.isPrefixOf_iff_prefix.mpr ⟨u, ?_⟩) hstart
        rw [hu, String.toList_append, List.append_assoc]
        rfl

/-- The script of a move says what the store does on its own. -/
theorem run_move_eq_relocation (parentId location : String)
    (hd : d.id = root.id → d.path = root.path) :
    (Script.move root.id parentId (Path.baseName (Path.normalize location)) root.path
      (Path.normalize location)).run d = Store.relocation root parentId location d := by
  rw [Script.run, Store.relocation, Script.movedPath_eq]
  split
  · rename_i hid
    simp only [hd hid, Path.rebase?, if_true, Option.getD_some]
    rfl
  · rfl

theorem Stray.relocation_eq_self_iff (h : Stray root d) (parentId location : String) :
    Store.relocation root parentId location d = d ↔ Path.normalize location = root.path := by
  have hpath : Store.relocation root parentId location d = d ↔
      (Path.rebase? d.path root.path (Path.normalize location)).getD d.path = d.path := by
    rw [Store.relocation, if_neg h.other]
    exact ⟨congrArg Resource.path, fun hsame => by rw [hsame]⟩
  rw [hpath]
  rcases h.path with hroot | ⟨u, hu, -⟩
  · rw [hroot, Path.rebase?, if_pos rfl, Option.getD_some]
  · rw [Path.rebase?_of_append (Path.normalize location) hu, Option.getD_some,
      ← String.toList_inj, String.toList_append, String.toList_ofList, hu,
      List.append_cancel_right_eq, String.toList_inj]

/-- The operation would change the document if it were of the root's subtree. -/
def Alters (root d : Resource) : CascadeAction → Prop
  | .move _ location => Path.normalize location ≠ root.path
  | .setDeleted deleted => d.deleted ≠ deleted
  | .purge onlyDeleted => onlyDeleted = true → d.deleted = true

instance (root d : Resource) (action : CascadeAction) : Decidable (Alters root d action) :=
  match action with
  | .move _ location => inferInstanceAs (Decidable (Path.normalize location ≠ root.path))
  | .setDeleted deleted => inferInstanceAs (Decidable (d.deleted ≠ deleted))
  | .purge onlyDeleted => inferInstanceAs (Decidable (onlyDeleted = true → d.deleted = true))

/-- An update of the subtree and of strays is one of the subtree alone if it keeps the strays. -/
theorem map_eq_rewrite_iff {selected : Resource → Bool} {f g : Resource → Resource}
    (hsel : ∀ d ∈ s.docs, selected d = true ↔ d ∈ s.subtree root ∨ Stray root d)
    (hfg : ∀ d ∈ s.subtree root, f d = g d) :
    (⟨s.docs.map fun d => if selected d then f d else d⟩ : Store) = s.rewrite (s.subtree root) g ↔
      ∀ d ∈ s.docs, Stray root d → f d = d := by
  rw [Store.rewrite, Store.mk.injEq, List.map_inj_left]
  constructor
  · intro hall d hd hstray
    have hboth := hall d hd
    rwa [if_pos ((hsel d hd).mpr (.inr hstray)), if_neg hstray.notMem_subtree] at hboth
  · intro hkept d hd
    by_cases hsub : d ∈ s.subtree root
    · rw [if_pos ((hsel d hd).mpr (.inl hsub)), if_pos hsub, hfg d hsub]
    · rw [if_neg hsub]
      split
      · rename_i hselected
        exact hkept d hd (((hsel d hd).mp hselected).resolve_left hsub)
      · rfl

theorem mem_purge_iff (onlyDeleted : Bool) :
    d ∈ (s.subtree root).filter (fun d => !onlyDeleted || d.deleted) ↔
      d ∈ s.subtree root ∧ Alters root d (.purge onlyDeleted) := by
  rw [List.mem_filter, Alters]
  cases onlyDeleted with
  | false => simp only [Bool.not_false, Bool.true_or, Bool.false_eq_true, false_imp_iff]
  | true => simp only [Bool.not_true, Bool.false_or, true_imp_iff]

theorem selects_purge_iff (a : Analyzer) (onlyDeleted : Bool) (d : Resource) :
    (if onlyDeleted then Dsl.filtered [] [subtree root, .flag .deleted true]
      else subtree root).selects a d = true ↔
      (subtree root).selects a d = true ∧ Alters root d (.purge onlyDeleted) := by
  rw [Alters]
  cases onlyDeleted with
  | false => simp only [Bool.false_eq_true, if_false, false_imp_iff, and_true]
  | true => simp only [if_true, Dsl.selects, Dsl.allSelect, Bool.true_and, Bool.and_true,
      Bool.and_eq_true, beq_self_eq_true, beq_iff_eq, true_imp_iff]

theorem run_purge_eq_cascaded_iff (hs : s.IdsUnique) (hr : root ∈ s.docs) (a : Analyzer)
    (onlyDeleted : Bool) :
    (ByQuery.ofCascade root (.purge onlyDeleted)).run a s = s.cascaded root (.purge onlyDeleted) ↔
      ∀ d ∈ s.docs, Stray root d → ¬ Alters root d (.purge onlyDeleted) := by
  rw [ByQuery.ofCascade, ByQuery.run, Store.cascaded, Store.without, Store.mk.injEq]
  constructor
  · intro hsame d hd hstray halters
    have hselected := (selects_purge_iff a onlyDeleted d).mpr
      ⟨(selects_subtree_iff hs hr a hd).mpr (.inr hstray), halters⟩
    have hkept : d ∈ s.docs.filter fun d =>
        d ∉ (s.subtree root).filter fun d => !onlyDeleted || d.deleted := by
      rw [List.mem_filter, decide_eq_true_eq, mem_purge_iff]
      exact ⟨hd, fun h => hstray.notMem_subtree h.1⟩
    rw [← hsame, List.mem_filter, hselected] at hkept
    exact Bool.false_ne_true hkept.2
  · intro hkept
    apply List.filter_congr
    intro d hd
    rw [Bool.eq_iff_iff, Bool.not_eq_true', ← Bool.not_eq_true, selects_purge_iff,
      decide_eq_true_eq, mem_purge_iff, not_iff_not, selects_subtree_iff hs hr a hd]
    constructor
    · rintro ⟨hsub | hstray, halters⟩
      · exact ⟨hsub, halters⟩
      · exact absurd halters (hkept d hd hstray)
    · exact fun ⟨hsub, halters⟩ => ⟨.inl hsub, halters⟩

/-- The two leave the same documents exactly if the operation would alter no stray. -/
theorem run_ofCascade_eq_cascaded_iff (hs : s.IdsUnique) (hr : root ∈ s.docs) (a : Analyzer)
    (action : CascadeAction) :
    (ByQuery.ofCascade root action).run a s = s.cascaded root action ↔
      ∀ d ∈ s.docs, Stray root d → ¬ Alters root d action := by
  have hsel : ∀ d ∈ s.docs, (subtree root).selects a d = true ↔ d ∈ s.subtree root ∨ Stray root d :=
    fun d hd => selects_subtree_iff hs hr a hd
  have hdocs := Store.mem_docs_of_mem_subtree hr
  cases action with
  | move parentId location =>
    have hmove : ∀ d ∈ s.docs, (Script.move root.id parentId
        (Path.baseName (Path.normalize location)) root.path (Path.normalize location)).run d =
          Store.relocation root parentId location d := by
      intro d hd
      apply run_move_eq_relocation
      exact fun hid => congrArg Resource.path (hs.eq_of_id_eq hd hr hid)
    refine (map_eq_rewrite_iff hsel fun d hd => hmove d (hdocs d hd)).trans ?_
    refine forall₂_congr fun d hd => forall_congr' fun hstray => ?_
    rw [hmove d hd, hstray.relocation_eq_self_iff, Alters, not_not]
  | setDeleted deleted =>
    refine (map_eq_rewrite_iff hsel fun d _ => rfl).trans ?_
    refine forall₂_congr fun d hd => forall_congr' fun hstray => ?_
    rw [Alters, not_not]
    constructor
    · exact fun hsame => (congrArg Resource.deleted hsame).symm
    · intro hdeleted
      rw [Script.run, ← hdeleted]
  | purge onlyDeleted => exact run_purge_eq_cascaded_iff hs hr a onlyDeleted

end ResourceIndex.Cluster
