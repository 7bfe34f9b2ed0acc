import ResourceIndex.Proofs.Query.Literal
import ResourceIndex.Proofs.Store.Documents
import ResourceIndex.Store.Cascade
/-
Subtrees and what subtree operations make of them. The operations write a subtree anew or remove
documents of it, and leave the rest of the store as it was.
-/
namespace ResourceIndex.Store

variable {s : Store} {root : Resource} {f g : Resource → Resource}

theorem covers_belowRegex_iff (path : String) (t : List Char) :
    Query.Regex.covers (belowRegex path) t = true ↔
      ∃ u, t = path.toList ++ '/' :: u ∧ '\n' ∉ u := by
  have hread : Query.Regex.read? ['/', '.', '*'] = some (['/'].map .char ++ [.run]) := by decide
  rw [belowRegex, Query.Regex.covers_escapeRegex_append hread]
  simp only [Query.Regex.fits_map_char_append, Query.Regex.fits_run_iff]
  constructor
  · rintro ⟨-, rfl, u, rfl, hu⟩
    exact ⟨u, rfl, hu⟩
  · rintro ⟨u, rfl, hu⟩
    exact ⟨'/' :: u, rfl, u, rfl, hu⟩

theorem mem_descendants_iff {rootId path : String} {d : Resource} :
    d ∈ s.descendants rootId path ↔ d ∈ s.docs ∧ d.rootId = rootId ∧
      ∃ u, d.path.toList = path.toList ++ '/' :: u ∧ '\n' ∉ u := by
  rw [descendants, List.mem_filter, Bool.and_eq_true, beq_iff_eq, covers_belowRegex_iff]

/-- The documents below a root; only containers have any. -/
def below (s : Store) (root : Resource) : List Resource :=
  if root.isContainer then s.descendants root.rootId root.path else []

/-- The error of looking up what lies below a root, whatever is stored there. -/
def lookupFault? [RegexBuilder] (root : Resource) : Option IndexError :=
  if root.isContainer then (RegexBuilder.refusal? (belowRegex root.path)).map .store else none

theorem lookupFault?_congr [RegexBuilder] {other : Resource} (hkind : root.kind = other.kind)
    (hpath : root.path = other.path) : lookupFault? root = lookupFault? other := by
  rw [lookupFault?, lookupFault?, Resource.isContainer, hkind, hpath]
  rfl

theorem findBelow_eq [RegexBuilder] (s : Store) (root : Resource) :
    s.findBelow root =
      match lookupFault? root with
      | some e => .error e
      | none => .ok (s.below root) := by
  rw [findBelow, lookupFault?, below]
  split
  · rw [findDescendants]
    cases RegexBuilder.refusal? (belowRegex root.path) with
    | some reason => rfl
    | none => rfl
  · rfl

/-- The root of a subtree operation and the documents below it. -/
def subtree (s : Store) (root : Resource) : List Resource := root :: s.below root

theorem mem_below_iff {d : Resource} :
    d ∈ s.below root ↔ root.isContainer = true ∧ d ∈ s.descendants root.rootId root.path := by
  rw [below]
  split
  · rename_i h
    simp only [h, true_and]
  · rename_i h
    simp only [h, List.not_mem_nil, Bool.false_eq_true, false_and]

theorem mem_docs_of_mem_below {d : Resource} (h : d ∈ s.below root) : d ∈ s.docs :=
  (mem_descendants_iff.mp (mem_below_iff.mp h).2).1

theorem exists_path_of_mem_below {d : Resource} (h : d ∈ s.below root) :
    ∃ u, d.path.toList = root.path.toList ++ '/' :: u := by
  obtain ⟨-, -, u, hu, -⟩ := mem_descendants_iff.mp (mem_below_iff.mp h).2
  exact ⟨u, hu⟩

/-- A root is not below itself: the paths below are longer. -/
theorem root_notMem_below : root ∉ s.below root := by
  intro h
  obtain ⟨u, hu⟩ := exists_path_of_mem_below h
  have hlen := congrArg List.length hu
  simp only [List.length_append, List.length_cons] at hlen
  omega

theorem id_ne_of_mem_below (hs : s.IdsUnique) (hr : root ∈ s.docs) {d : Resource}
    (hd : d ∈ s.below root) : d.id ≠ root.id := by
  intro h
  rw [hs.eq_of_id_eq (mem_docs_of_mem_below hd) hr h] at hd
  exact root_notMem_below hd

theorem mem_docs_of_mem_subtree (hr : root ∈ s.docs) : ∀ d ∈ s.subtree root, d ∈ s.docs := by
  intro d hd
  rcases List.mem_cons.mp hd with rfl | hd
  · exact hr
  · exact mem_docs_of_mem_below hd

theorem below_nodup (hs : s.IdsUnique) : (s.below root).Nodup := by
  rw [below]
  split
  · exact hs.nodup.filter _
  · exact List.nodup_nil

theorem subtree_nodup (hs : s.IdsUnique) : (s.subtree root).Nodup :=
  List.nodup_cons.mpr ⟨root_notMem_below, below_nodup hs⟩

/-- What a move of the root makes of a document of the subtree. -/
def relocation (root : Resource) (parentId location : String) (d : Resource) : Resource :=
  if d.id = root.id then { d with parentId := parentId }.relocate location
  else { d with path := (Path.rebase? d.path root.path (Path.normalize location)).getD d.path }

theorem relocation_id (root : Resource) (parentId location : String) (d : Resource) :
    (relocation root parentId location d).id = d.id := by
  unfold relocation
  split
  · rfl
  · rfl

def marked (deleted : Bool) (d : Resource) : Resource := { d with deleted := deleted }

/-- The store after a subtree operation. -/
def cascaded (s : Store) (root : Resource) : CascadeAction → Store
  | .move parentId location => s.rewrite (s.subtree root) (relocation root parentId location)
  | .setDeleted deleted => s.rewrite (s.subtree root) (marked deleted)
  | .purge onlyDeleted =>
    s.without ((s.subtree root).filter fun d => !onlyDeleted || d.deleted)

theorem cascadeWrites_move (hs : s.IdsUnique) (hr : root ∈ s.docs) {ds : List Resource}
    (hds : ∀ d ∈ ds, d ∈ s.below root) (parentId location : String) :
    cascadeWrites root ds (.move parentId location) =
      (root :: ds).map fun d => .put (relocation root parentId location d) := by
  rw [cascadeWrites, List.map_cons, relocation, if_pos rfl, List.cons.injEq]
  refine ⟨rfl, List.map_congr_left ?_⟩
  intro d hd
  rw [relocation, if_neg (id_ne_of_mem_below hs hr (hds d hd))]
  rfl

/-- The order in which the documents below the root are found does not matter. -/
theorem writeAll_cascadeWrites (hs : s.IdsUnique) (hr : root ∈ s.docs) {ds : List Resource}
    (hds : ds.Perm (s.below root)) (action : CascadeAction) :
    s.writeAll (cascadeWrites root ds action) = s.cascaded root action := by
  have hall : (root :: ds).Perm (s.subtree root) := hds.cons root
  have hdocs : ∀ d ∈ root :: ds, d ∈ s.docs := fun d hd =>
    mem_docs_of_mem_subtree hr d (hall.mem_iff.mp hd)
  have hnodup : (root :: ds).Nodup := hall.nodup_iff.mpr (subtree_nodup hs)
  cases action with
  | move parentId location =>
    rw [cascadeWrites_move hs hr fun d hd => hds.mem_iff.mp hd,
      writeAll_put hs (relocation_id root parentId location) hdocs hnodup]
    exact rewrite_congr fun d => hall.mem_iff
  | setDeleted deleted =>
    have hput := writeAll_put (f := marked deleted) hs (fun _ => rfl) hdocs hnodup
    exact hput.trans (rewrite_congr fun d => hall.mem_iff)
  | purge onlyDeleted =>
    rw [cascadeWrites, writeAll_remove hs fun d hd => hdocs d (List.mem_filter.mp hd).1]
    exact without_congr fun d => (hall.filter _).mem_iff

section

variable [RegexBuilder] {c : Cascade}

theorem cascade_eq (hs : s.IdsUnique) (hr : s.get? c.id = some root)
    (hlookup : lookupFault? root = none) : s.cascade c = .ok (s.cascaded root c.action) := by
  rw [cascade, hr]
  dsimp only
  rw [findBelow_eq, hlookup]
  exact congrArg _
    (writeAll_cascadeWrites hs (mem_and_id_eq_of_get? hr).1 (List.Perm.refl _) c.action)

theorem cascade_of_lookupFault {e : IndexError} (hr : s.get? c.id = some root)
    (hlookup : lookupFault? root = some e) : s.cascade c = .error e := by
  rw [cascade, hr]
  dsimp only
  rw [findBelow_eq, hlookup]
  rfl

theorem cascade_of_get?_eq_none (hr : s.get? c.id = none) :
    s.cascade c = .error (.notFound c.id) := by
  rw [cascade, hr]

end

/-- A change of documents after which all of them stand where they stood. -/
structure KeepsPlace (g : Resource → Resource) : Prop where
  id : ∀ d, (g d).id = d.id
  rootId : ∀ d, (g d).rootId = d.rootId
  path : ∀ d, (g d).path = d.path
  kind : ∀ d, (g d).kind = d.kind

theorem descendants_rewrite (hg : KeepsPlace g) (chosen : List Resource) (rootId path : String) :
    (s.rewrite chosen g).descendants rootId path =
      (s.descendants rootId path).map fun d => if d ∈ chosen then g d else d := by
  rw [descendants, rewrite, List.filter_map, descendants]
  congr 2
  funext d
  simp only [Function.comp_apply]
  split
  · rw [hg.rootId, hg.path]
  · rfl

theorem below_rewrite (hg : KeepsPlace g) :
    (s.rewrite (s.subtree root) g).below (g root) = (s.below root).map g := by
  have hkind : (g root).isContainer = root.isContainer := by
    rw [Resource.isContainer, hg.kind, Resource.isContainer]
  rw [below, hkind, hg.rootId, hg.path, descendants_rewrite hg]
  split
  · rename_i hc
    rw [below, if_pos hc]
    apply List.map_congr_left
    intro d hd
    have hbelow : d ∈ s.below root := mem_below_iff.mpr ⟨hc, hd⟩
    exact if_pos (List.mem_cons_of_mem root hbelow)
  · rename_i hc
    rw [below, if_neg hc, List.map_nil]

theorem subtree_rewrite (hg : KeepsPlace g) :
    (s.rewrite (s.subtree root) g).subtree (g root) = (s.subtree root).map g := by
  rw [subtree, below_rewrite hg, subtree, List.map_cons]

end ResourceIndex.Store
