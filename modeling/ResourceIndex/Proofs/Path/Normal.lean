import ResourceIndex.Proofs.Path.Canonical
/-
Normal forms. Every text leads to a canonical path, and canonical paths lead to themselves. When
texts are joined, what `..` takes away in the second can be looked up in the normal form of the
first, since reading the second goes on from the segments that the first has left.
-/
namespace ResourceIndex.Path

variable {path : String} {gs : List (List Char)}

/-- The pieces of a path behind its first; those of a canonical path are its segments. -/
def pieces (path : String) : List (List Char) := (Text.splitOn '/' path.toList).tail

theorem pieces_ofSegments (h : ∀ g ∈ gs, IsSegment g) : pieces (ofSegments gs) = gs := by
  rw [pieces, toList_ofSegments, splitOn_lead h, List.tail_cons]

/-- The root, or segments joined by slashes behind a dot and a slash. -/
def IsCanonical (path : String) : Prop :=
  path = root ∨ ∃ gs, gs ≠ [] ∧ (∀ g ∈ gs, IsSegment g) ∧
    path.toList = '.' :: '/' :: Text.join ['/'] gs

theorem toList_ofSegments_cons (g : List Char) (gs : List (List Char)) :
    (ofSegments (g :: gs)).toList = '.' :: '/' :: Text.join ['/'] (g :: gs) := by
  rw [toList_ofSegments, Text.lead_eq_join]

theorem isCanonical_iff : IsCanonical path ↔ normalize path = path := by
  rw [normalize_eq_self_iff]
  constructor
  · rintro (rfl | ⟨gs, hne, hgs, hpath⟩)
    · exact ⟨[], fun _ hg => absurd hg List.not_mem_nil, rfl⟩
    · obtain ⟨g, gs, rfl⟩ := List.exists_cons_of_ne_nil hne
      refine ⟨g :: gs, hgs, String.toList_inj.mp ?_⟩
      rw [hpath, toList_ofSegments_cons]
  · rintro ⟨gs, hgs, rfl⟩
    cases gs with
    | nil => exact .inl rfl
    | cons g gs => exact .inr ⟨g :: gs, List.cons_ne_nil g gs, hgs, toList_ofSegments_cons g gs⟩

theorem segments_normalize (path : String) :
    segments (normalize path).toList = segments path.toList := by
  rw [normalize_eq_ofSegments, toList_ofSegments, segments_lead (segments_isSegment _)]

/-- What follows a slash is read with the segments before it as the ones read so far. -/
theorem segments_append_cons (s t : List Char) :
    segments (s ++ '/' :: t) = (Text.splitOn '/' t).foldl step (segments s) := by
  rw [segments, Text.splitOn_append_sep, resolve, List.foldl_append]
  rfl

theorem segments_joined (a b : String) :
    segments (a ++ "/" ++ b).toList =
      (Text.splitOn '/' b.toList).foldl step (segments a.toList) := by
  rw [String.toList_append, String.toList_append, List.append_assoc, ← segments_append_cons]
  rfl

/-- The first of two joined paths can be exchanged for its normal form. -/
theorem normalize_joined (a b : String) :
    normalize (a ++ "/" ++ b) = normalize (normalize a ++ "/" ++ b) := by
  rw [normalize_eq_ofSegments, segments_joined, normalize_eq_ofSegments (normalize a ++ "/" ++ b),
    segments_joined, segments_normalize]

theorem ofSegments_eq_root_iff : ofSegments gs = root ↔ gs = [] := by
  constructor
  · intro h
    cases gs with
    | nil => rfl
    | cons g gs =>
      have hlist := congrArg String.toList h
      rw [toList_ofSegments] at hlist
      cases (List.cons.inj hlist).2
  · rintro rfl
    rfl

theorem baseName_ofSegments_concat {g : List Char} (hg : IsSegment g) (gs : List (List Char)) :
    (baseName (ofSegments (gs ++ [g]))).toList = g := by
  have hroot : ofSegments (gs ++ [g]) ≠ root := fun h =>
    List.append_ne_nil_of_right_ne_nil gs (List.cons_ne_nil g []) (ofSegments_eq_root_iff.mp h)
  have hlist : (ofSegments (gs ++ [g])).toList = ('.' :: Text.lead '/' gs) ++ '/' :: g := by
    rw [toList_ofSegments, Text.lead_append, Text.lead_cons, Text.lead_nil, List.append_nil,
      List.cons_append]
  rw [baseName, if_neg hroot, String.toList_ofList, hlist]
  exact Text.afterLast_append_cons hg.no_slash _

theorem baseName_eq_last (hpath : normalize path = path) (hroot : path ≠ root) :
    (pieces path).getLast? = some (baseName path).toList ∧ '/' ∉ (baseName path).toList := by
  obtain ⟨gs, hgs, rfl⟩ := normalize_eq_self_iff.mp hpath
  obtain rfl | ⟨front, g, rfl⟩ := List.eq_nil_or_concat' gs
  · exact absurd (ofSegments_eq_root_iff.mpr rfl) hroot
  · have hg : IsSegment g := hgs g (List.mem_append_right front (List.mem_singleton_self g))
    rw [pieces_ofSegments hgs, baseName_ofSegments_concat hg, List.getLast?_concat]
    exact ⟨rfl, hg.no_slash⟩

/-- Normal forms are the canonical paths. What two joined paths lead to stays the same when the first
is made canonical, and the name of a canonical path below the root is its last segment. -/
theorem normalize_canonical_joined (path a b : String) :
    IsCanonical (normalize path) ∧ normalize (normalize path) = normalize path ∧
      (IsCanonical path → normalize path = path) ∧
      normalize (a ++ "/" ++ b) = normalize (normalize a ++ "/" ++ b) ∧
      (normalize path = path → path ≠ root →
        (pieces path).getLast? = some (baseName path).toList ∧ '/' ∉ (baseName path).toList) :=
  ⟨isCanonical_iff.mpr (normalize_normalize path), normalize_normalize path, isCanonical_iff.mp,
    normalize_joined a b, baseName_eq_last⟩

/-- More dots than two make a name, and `..` does not lead above the root. -/
theorem normalize_canonical_joined_above_root :
    let path := "./a/..."
    IsCanonical (normalize path) ∧ normalize path = path ∧ path ≠ root ∧
      normalize ("x/../.." ++ "/" ++ "../y//z") =
        normalize (normalize "x/../.." ++ "/" ++ "../y//z") ∧
      (pieces path).getLast? = some (baseName path).toList ∧ '/' ∉ (baseName path).toList := by
  intro path
  have hpath : normalize path = path := by decide
  have hroot : path ≠ root := by decide
  obtain ⟨hshape, -, hfixed, hjoined, hname⟩ :=
    normalize_canonical_joined path "x/../.." "../y//z"
  exact ⟨hshape, hfixed (hpath ▸ hshape), hroot, hjoined, hname hpath hroot⟩

end ResourceIndex.Path
