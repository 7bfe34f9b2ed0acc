import Mathlib.Algebra.Group.Int.Defs
import ResourceIndex.Cluster.Batch
import ResourceIndex.Proofs.Json.Numbers
import ResourceIndex.Proofs.Json.Order
import ResourceIndex.Proofs.Resource.Stored
import ResourceIndex.Store.Document
/-
What both indexes store of a resource loses nothing that has a text of its own. The metadata blocks
are objects of scalars, so the text of a resource is read as its value whatever the order of the
members in it.
-/
namespace ResourceIndex

open Json

namespace Json

variable {α : Type} {d : Nat} {encode : α → Json} {o : Option α}

theorem legible_option (h : ∀ a ∈ o, Legible d (encode a)) : Legible d (option encode o) := by
  cases o with
  | none => exact .null
  | some a => exact h a rfl

theorem legible_int {n : Int} (hlow : -2 ^ 63 ≤ n) (hhigh : n < 2 ^ 64) : Legible d (.int n) := by
  have hmin : Int64.minValue.toInt = -2 ^ 63 := by decide
  have hsize : (UInt64.size : Int) = 2 ^ 64 := by decide
  exact .int (hmin ▸ hlow) (hsize ▸ hhigh)

theorem legible_int32 (n : Int32) : Legible d (int32 n) := by
  have hlow := n.le_toInt
  have hhigh := n.toInt_lt
  exact legible_int (by omega) (by omega)

theorem legible_int64 (n : Int64) : Legible d (int64 n) := by
  have hlow := n.le_toInt
  have hhigh := n.toInt_lt
  exact legible_int (by omega) (by omega)

theorem legible_uint64 (n : UInt64) : Legible d (.int n.toNat) := by
  have hn := n.toNat_lt
  exact legible_int (by omega) (by omega)

/-- What is written of a number is finite, so it is read back. -/
theorem legible_number (x : Option Binary64) : Legible d (number x) :=
  legible_option fun _ hx => .float (readsBack_of_isFinite (Option.mem_filter_iff.mp hx).2)

end Json

theorem Audio.legible_members (a : Audio) : ∀ m ∈ a.members, Legible 0 m.2 := by
  have hstr : ∀ o : Option String, Legible 0 (option .str o) :=
    fun o => legible_option fun s _ => .str s
  have hbool : ∀ o : Option Bool, Legible 0 (option .bool o) :=
    fun o => legible_option fun b _ => .bool b
  have hint : ∀ o : Option Int32, Legible 0 (option int32 o) :=
    fun o => legible_option fun n _ => legible_int32 n
  have hlong : ∀ o : Option Int64, Legible 0 (option int64 o) :=
    fun o => legible_option fun n _ => legible_int64 n
  simp only [members, List.forall_mem_cons, hstr, hbool, hint, hlong, true_and]
  exact List.forall_mem_nil _

theorem Image.legible_members (i : Image) : ∀ m ∈ i.members, Legible 0 m.2 := by
  have hint : ∀ o : Option Int32, Legible 0 (option int32 o) :=
    fun o => legible_option fun n _ => legible_int32 n
  simp only [members, List.forall_mem_cons, hint, true_and]
  exact List.forall_mem_nil _

theorem GeoCoordinates.legible_members (g : GeoCoordinates) : ∀ m ∈ g.members, Legible 0 m.2 := by
  simp only [members, List.forall_mem_cons, legible_number, true_and]
  exact List.forall_mem_nil _

theorem Photo.legible_members (p : Photo) : ∀ m ∈ p.members, Legible 0 m.2 := by
  have hstr : ∀ o : Option String, Legible 0 (option .str o) :=
    fun o => legible_option fun s _ => .str s
  have hint : ∀ o : Option Int32, Legible 0 (option int32 o) :=
    fun o => legible_option fun n _ => legible_int32 n
  have htime : Legible 0 (option Timestamp.toJson p.takenDateTime) :=
    legible_option fun t _ => .str t.text
  simp only [members, List.forall_mem_cons, hstr, hint, htime, legible_number, true_and]
  exact List.forall_mem_nil _

theorem legible_strings (l : List String) : Legible 1 (strings l) := by
  refine .arr fun v hv => ?_
  obtain ⟨s, -, rfl⟩ := List.mem_map.mp hv
  exact .str s

theorem ordered_strings (l : List String) : (strings l).ordered = strings l := by
  refine ordered_arr_of_legible fun v hv => ?_
  obtain ⟨s, -, rfl⟩ := List.mem_map.mp hv
  exact .str s

namespace Document

variable {α : Type} {d : Nat} {encode encode' : α → Json} {o : Option α} {doc : Document}

theorem legible_present (name : String) (h : ∀ a ∈ o, Legible d (encode a)) :
    ∀ m ∈ present name encode o, Legible d m.2 := by
  cases o with
  | none => exact List.forall_mem_nil _
  | some a => exact List.forall_mem_singleton.mpr (h a rfl)

theorem orderedMembers_present (name : String) (h : ∀ a ∈ o, (encode a).ordered = encode' a) :
    orderedMembers (present name encode o) = present name encode' o := by
  cases o with
  | none => rfl
  | some a =>
    rw [present, orderedMembers, h a rfl]
    rfl

theorem legible_members (doc : Document) : ∀ m ∈ doc.members .obj, Legible 1 m.2 := by
  simp only [members, List.forall_mem_append]
  refine ⟨⟨⟨⟨⟨⟨?_, ?_⟩, ?_⟩, ?_⟩, ?_⟩, ?_⟩, ?_⟩
  · simp only [List.forall_mem_cons]
    exact ⟨.str _, .str _, legible_uint64 _, List.forall_mem_nil _⟩
  · exact legible_present _ fun t _ => .str t.text
  · simp only [List.forall_mem_cons]
    exact ⟨.str _, .str _, legible_strings _, List.forall_mem_nil _⟩
  · exact legible_present _ fun a _ => .obj a.legible_members
  · exact legible_present _ fun i _ => .obj i.legible_members
  · exact legible_present _ fun g _ => .obj g.legible_members
  · exact legible_present _ fun p _ => .obj p.legible_members

theorem orderedMembers_members (doc : Document) :
    orderedMembers (doc.members .obj) = doc.members object := by
  have hfirst : orderedMembers [("name", .str doc.name), ("title", .str doc.title),
      ("size", .int doc.size.toNat)] = [("name", .str doc.name), ("title", .str doc.title),
      ("size", .int doc.size.toNat)] := rfl
  have hmiddle : orderedMembers [("mime_type", .str doc.mimeType), ("content", .str doc.content),
      ("tags", strings doc.tags.toList)] = [("mime_type", .str doc.mimeType),
      ("content", .str doc.content), ("tags", strings doc.tags.toList)] := by
    rw [orderedMembers, orderedMembers, orderedMembers, ordered_strings]
    rfl
  have htime : ∀ t : Timestamp, t.toJson.ordered = t.toJson := fun t => rfl
  simp only [members, orderedMembers_append, hfirst, hmiddle]
  rw [orderedMembers_present "mtime" fun t _ => htime t,
    orderedMembers_present "audio" fun a _ => ordered_obj_of_legible a.legible_members,
    orderedMembers_present "image" fun i _ => ordered_obj_of_legible i.legible_members,
    orderedMembers_present "location" fun g _ => ordered_obj_of_legible g.legible_members,
    orderedMembers_present "photo" fun p _ => ordered_obj_of_legible p.legible_members]

end Document

namespace Resource

/-- The value whose text is stored has at most two levels below the resource itself. -/
theorem legible_members (r : Resource) : ∀ m ∈ r.members .obj, Legible 1 m.2 := by
  refine List.forall_mem_append.mpr ⟨?_, r.document.legible_members⟩
  simp only [List.forall_mem_cons]
  exact ⟨.str _, .str _, .str _, .str _, .str _, .bool _, .bool _, List.forall_mem_nil _⟩

theorem legible_obj (r : Resource) : Legible 127 (.obj (r.members .obj)) :=
  Legible.mono (d := 2) (.obj r.legible_members) (by decide)

theorem ordered_members (r : Resource) : (Json.obj (r.members .obj)).ordered = r.toJson := by
  rw [ordered, members, orderedMembers_append, Document.orderedMembers_members]
  rfl

theorem ofText?_text (r : Resource) : ofText? r.text = some r.toJson := by
  rw [text, r.legible_obj.ofText?_text, r.ordered_members]

theorem read?_render_toJson (r : Resource) : read? r.toJson.render = some r.toJson := by
  rw [← r.ordered_members, r.legible_obj.read?_render_ordered]

end Resource

theorem IndexDocument.first?_source (r : Resource) :
    (ofResource r).first? .source = some (.text r.text) := by
  have htags : (r.document.tags.toList.map fun tag => (IndexField.tag, IndexValue.text tag)).lookup
      .source = none := by
    rw [List.lookup_eq_none_iff]
    intro p hp
    obtain ⟨tag, -, rfl⟩ := List.mem_map.mp hp
    rfl
  rw [first?, ofResource, List.lookup_append, List.lookup_append, htags]
  rfl

/-- Any resource is read out of its document as it is stored. -/
theorem IndexDocument.resource?_ofResource (r : Resource) :
    (ofResource r).resource? = .ok r.stored := by
  rw [resource?, first?_source]
  simp only [r.ofText?_text, Option.bind_some, Resource.ofJson?_toJson]

example :
    let modifiedAt (t : Timestamp) : Resource :=
      ⟨"s$a!b", "s$a!a", "./b", "", .file, false, false, { Document.empty with modified := some t }⟩
    (IndexDocument.ofResource
        (modifiedAt ⟨⟨2020, 1, 1, 23, 7, 51, 1000000000⟩, by decide⟩)).resource? =
      .ok (modifiedAt ⟨⟨2020, 1, 1, 23, 7, 52, 0⟩, by decide⟩) :=
  IndexDocument.resource?_ofResource _

end ResourceIndex
