import ResourceIndex.Proofs.Path.Normal
/-
Paths that are carried from one place to another. Below canonical paths all is told by segments:
what lies within a scope begins with the segments of the scope, and when the scope is exchanged the
segments below it stay. The root, which has no segments and no slash, is no exception.
-/
namespace ResourceIndex.Path

variable {path scope new moved : String} {gs ss ns : List (List Char)}

theorem isWithin_iff_pieces (hpath : normalize path = path) (hscope : normalize scope = scope) :
    isWithin path scope = true ↔ pieces scope <+: pieces path := by
  obtain ⟨gs, hgs, rfl⟩ := normalize_eq_self_iff.mp hpath
  obtain ⟨ss, hss, rfl⟩ := normalize_eq_self_iff.mp hscope
  rw [isWithin_ofSegments hgs hss, pieces_ofSegments hgs, pieces_ofSegments hss]

theorem eq_of_pieces_eq (hpath : normalize path = path) (hscope : normalize scope = scope)
    (h : pieces path = pieces scope) : path = scope := by
  obtain ⟨gs, hgs, rfl⟩ := normalize_eq_self_iff.mp hpath
  obtain ⟨ss, hss, rfl⟩ := normalize_eq_self_iff.mp hscope
  rw [pieces_ofSegments hgs, pieces_ofSegments hss] at h
  rw [h]

theorem isWithin_trans (hpath : normalize path = path) (hscope : normalize scope = scope)
    (hnew : normalize new = new) (h : isWithin path scope = true)
    (h' : isWithin scope new = true) : isWithin path new = true := by
  rw [isWithin_iff_pieces hpath hscope] at h
  rw [isWithin_iff_pieces hscope hnew] at h'
  exact (isWithin_iff_pieces hpath hnew).mpr (h'.trans h)

theorem isWithin_antisymm (hpath : normalize path = path) (hscope : normalize scope = scope)
    (h : isWithin path scope = true) (h' : isWithin scope path = true) : path = scope := by
  rw [isWithin_iff_pieces hpath hscope] at h
  rw [isWithin_iff_pieces hscope hpath] at h'
  exact eq_of_pieces_eq hpath hscope (h'.eq_of_length_le h.length_le)

/-- Nothing is exchanged but the segments of the scope. -/
theorem rebase?_ofSegments_append (ss cs ns : List (List Char)) :
    rebase? (ofSegments (ss ++ cs)) (ofSegments ss) (ofSegments ns) =
      some (ofSegments (ns ++ cs)) := by
  cases cs with
  | nil => rw [List.append_nil, List.append_nil, rebase?, if_pos rfl]
  | cons c cs =>
    have hlist : (ofSegments (ss ++ c :: cs)).toList =
        (ofSegments ss).toList ++ '/' :: (c ++ Text.lead '/' cs) := by
      rw [toList_ofSegments, toList_ofSegments, Text.lead_append, Text.lead_cons]
      rfl
    rw [rebase?_of_append _ hlist, ← ofSegments_append]
    rfl

theorem rebase?_eq_some (h : rebase? path scope new = some moved) :
    path = scope ∨ ∃ u, path.toList = scope.toList ++ '/' :: u := by
  rw [rebase?] at h
  split at h
  · rename_i hsame
    exact .inl hsame
  · split at h
    · rename_i u hu
      exact .inr ⟨u, (List.isPrefixOf?_eq_some_iff_append_eq.mp hu).symm⟩
    · cases h

theorem isSome_rebase?_iff (hpath : normalize path = path) (hscope : normalize scope = scope)
    (new : String) : (rebase? path scope new).isSome = true ↔ isWithin path scope = true := by
  rw [isWithin_iff hpath hscope]
  constructor
  · intro h
    obtain ⟨moved, hmoved⟩ := Option.isSome_iff_exists.mp h
    exact rebase?_eq_some hmoved
  · rintro (rfl | ⟨u, hu⟩)
    · rw [rebase?, if_pos rfl, Option.isSome_some]
    · rw [rebase?_of_append new hu, Option.isSome_some]

/-- `moved` lies below `new` as `path` lies below `scope`, and the way back leads to `path`. -/
structure Carried (path scope new moved : String) : Prop where
  canonical : normalize moved = moved
  within : isWithin moved new = true
  below : ∃ gs, pieces path = pieces scope ++ gs ∧ pieces moved = pieces new ++ gs
  back : rebase? moved new scope = some path

theorem carried_of_rebase? (hpath : normalize path = path) (hscope : normalize scope = scope)
    (hnew : normalize new = new) (h : rebase? path scope new = some moved) :
    Carried path scope new moved := by
  have hwithin : isWithin path scope = true :=
    (isSome_rebase?_iff hpath hscope new).mp (Option.isSome_iff_exists.mpr ⟨moved, h⟩)
  obtain ⟨gs, hgs, rfl⟩ := normalize_eq_self_iff.mp hpath
  obtain ⟨ss, hss, rfl⟩ := normalize_eq_self_iff.mp hscope
  obtain ⟨ns, hns, rfl⟩ := normalize_eq_self_iff.mp hnew
  obtain ⟨cs, rfl⟩ := (isWithin_ofSegments hgs hss).mp hwithin
  have hmoved : ∀ g ∈ ns ++ cs, IsSegment g := by
    rw [List.forall_mem_append]
    exact ⟨hns, fun g hg => hgs g (List.mem_append_right ss hg)⟩
  rw [rebase?_ofSegments_append] at h
  cases h
  constructor
  case canonical => exact normalize_ofSegments hmoved
  case within => exact (isWithin_ofSegments hmoved hns).mpr (List.prefix_append ns cs)
  case below =>
    refine ⟨cs, ?_, ?_⟩
    · rw [pieces_ofSegments hgs, pieces_ofSegments hss]
    · rw [pieces_ofSegments hmoved, pieces_ofSegments hns]
  case back => exact rebase?_ofSegments_append ns cs ss

/-- Containment of canonical paths is the order of their segments by prefixes, and just what lies
within a scope can be carried elsewhere. -/
theorem contained_and_carried_by_segments (hpath : normalize path = path)
    (hscope : normalize scope = scope) (hnew : normalize new = new) :
    (isWithin path scope = true ↔ pieces scope <+: pieces path) ∧
      isWithin path path = true ∧
      (isWithin path scope = true → isWithin scope new = true → isWithin path new = true) ∧
      (isWithin path scope = true → isWithin scope path = true → path = scope) ∧
      ((rebase? path scope new).isSome = true ↔ isWithin path scope = true) ∧
      ∀ moved, rebase? path scope new = some moved → Carried path scope new moved :=
  ⟨isWithin_iff_pieces hpath hscope, isWithin_self hpath, isWithin_trans hpath hscope hnew,
    isWithin_antisymm hpath hscope, isSome_rebase?_iff hpath hscope new,
    fun _ => carried_of_rebase? hpath hscope hnew⟩

/-- A path is carried from the root into a folder whose name the path begins with. -/
theorem carried_from_root_to_namesake :
    let path := "./ab/.c"
    let new := "./a"
    normalize path = path ∧ normalize root = root ∧ normalize new = new ∧
      isWithin path new = false ∧ Carried path root new "./a/ab/.c" := by
  intro path new
  have hpath : normalize path = path := by decide
  have hnew : normalize new = new := by decide
  obtain ⟨-, -, -, -, -, hcarried⟩ := contained_and_carried_by_segments hpath normalize_root hnew
  exact ⟨hpath, normalize_root, hnew, by decide, hcarried "./a/ab/.c" (by decide)⟩

end ResourceIndex.Path
