import ResourceIndex.Proofs.Path.Canonical
import ResourceIndex.Proofs.Store.Subtree
/-
Moves of subtrees with canonical paths. All paths of a subtree begin with the segments of its
root, and a move exchanges these for the segments of the new place.
-/
namespace ResourceIndex.Store

variable {s : Store} {root d : Resource}

/-- Every id stands for one document, and all paths are canonical. -/
structure WellFormed (s : Store) : Prop where
  ids : s.IdsUnique
  paths : ∀ d ∈ s.docs, Path.normalize d.path = d.path

theorem relocation_root (parentId location : String) :
    relocation root parentId location root =
      { root with parentId := parentId }.relocate location := if_pos rfl

/-- Below the root only the path changes, and of it only the part that is the root's. -/
theorem relocation_of_mem_below (hs : s.WellFormed) (hr : root ∈ s.docs)
    (hd : d ∈ s.below root) (parentId location : String) :
    ∃ rest, d.path = root.path ++ rest ∧
      Path.rebase? d.path root.path (Path.normalize location) =
        some (Path.normalize location ++ rest) ∧
      relocation root parentId location d =
        { d with path := Path.normalize location ++ rest } := by
  obtain ⟨u, hu⟩ := exists_path_of_mem_below hd
  have hrebase := Path.rebase?_of_append (Path.normalize location) hu
  refine ⟨String.ofList ('/' :: u), ?_, hrebase, ?_⟩
  · rw [← String.toList_inj, String.toList_append, String.toList_ofList, hu]
  · rw [relocation, if_neg (id_ne_of_mem_below hs.ids hr hd), hrebase, Option.getD_some]

/-- A document of the subtree keeps its own segments behind those of the root. -/
theorem exists_segments_of_mem_subtree (hs : s.WellFormed) (hr : root ∈ s.docs)
    (hd : d ∈ s.subtree root) (parentId location : String) :
    ∃ cs, (∀ g ∈ cs, Path.IsSegment g) ∧
      d.path = Path.ofSegments (Path.segments root.path.toList ++ cs) ∧
      (relocation root parentId location d).path =
        Path.ofSegments (Path.segments location.toList ++ cs) := by
  rcases List.mem_cons.mp hd with rfl | hd
  · refine ⟨[], fun _ hg => absurd hg List.not_mem_nil, ?_, ?_⟩
    · rw [List.append_nil, ← Path.normalize_eq_ofSegments, hs.paths _ hr]
    · rw [relocation_root, List.append_nil, ← Path.normalize_eq_ofSegments]
      rfl
  · obtain ⟨u, hu⟩ := exists_path_of_mem_below hd
    obtain ⟨cs, hcs, hlead, hpath⟩ := Path.exists_segments_of_append
      (hs.paths d (mem_docs_of_mem_below hd)) (hs.paths root hr) hu
    refine ⟨cs, hcs, hpath, ?_⟩
    rw [relocation, if_neg (id_ne_of_mem_below hs.ids hr hd),
      Path.rebase?_of_append (Path.normalize location) hu, Option.getD_some, hlead,
      Path.normalize_eq_ofSegments, Path.ofSegments_append]

theorem isSegment_append {gs cs : List (List Char)} (hg : ∀ g ∈ gs, Path.IsSegment g)
    (hc : ∀ g ∈ cs, Path.IsSegment g) : ∀ g ∈ gs ++ cs, Path.IsSegment g :=
  List.forall_mem_append.mpr ⟨hg, hc⟩

theorem normalize_relocation (hs : s.WellFormed) (hr : root ∈ s.docs)
    (hd : d ∈ s.subtree root) (parentId location : String) :
    Path.normalize (relocation root parentId location d).path =
      (relocation root parentId location d).path := by
  obtain ⟨cs, hcs, -, hpath⟩ := exists_segments_of_mem_subtree hs hr hd parentId location
  rw [hpath]
  exact Path.normalize_ofSegments (isSegment_append (Path.segments_isSegment _) hcs)

theorem isWithin_relocation (hs : s.WellFormed) (hr : root ∈ s.docs)
    (hd : d ∈ s.subtree root) (parentId location : String) :
    Path.isWithin (relocation root parentId location d).path (Path.normalize location) = true := by
  obtain ⟨cs, hcs, -, hpath⟩ := exists_segments_of_mem_subtree hs hr hd parentId location
  have hnew := Path.segments_isSegment location.toList
  rw [hpath, Path.normalize_eq_ofSegments, Path.isWithin_ofSegments (isSegment_append hnew hcs) hnew]
  exact List.prefix_append _ cs

/-- Before a move as after it, one document of the subtree lies within another exactly if its own
segments begin with those of the other. -/
theorem isWithin_relocation_iff (hs : s.WellFormed) (hr : root ∈ s.docs) {e : Resource}
    (hd : d ∈ s.subtree root) (he : e ∈ s.subtree root) (parentId location : String) :
    Path.isWithin (relocation root parentId location d).path
        (relocation root parentId location e).path = true ↔
      Path.isWithin d.path e.path = true := by
  obtain ⟨cs, hcs, hold, hnew⟩ := exists_segments_of_mem_subtree hs hr hd parentId location
  obtain ⟨es, hes, hold', hnew'⟩ := exists_segments_of_mem_subtree hs hr he parentId location
  have hroot := Path.segments_isSegment root.path.toList
  have hplace := Path.segments_isSegment location.toList
  rw [hold, hold', hnew, hnew',
    Path.isWithin_ofSegments (isSegment_append hplace hcs) (isSegment_append hplace hes),
    Path.isWithin_ofSegments (isSegment_append hroot hcs) (isSegment_append hroot hes),
    List.prefix_append_right_inj, List.prefix_append_right_inj]

end ResourceIndex.Store
