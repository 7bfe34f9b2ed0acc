import ResourceIndex.Proofs.Cluster.Exchanges
import ResourceIndex.Proofs.Json.Lines
import ResourceIndex.Proofs.Store.Source
import ResourceIndex.Proofs.Text.Cut
/-
What a bulk request carries. The lines of its body are the texts of actions and sources by turns,
and neither an id nor a resource reaches over its own line, whatever characters it holds.
-/
namespace ResourceIndex.Cluster

open Json Text

variable {index : String} {writes : List BulkWrite}

namespace BulkWrite

/-- The two lines of a write, without their ends. -/
def linePair (index : String) (w : BulkWrite) : List Char × List Char :=
  ((w.action index).render, w.source.render)

theorem lines_eq (index : String) (w : BulkWrite) :
    w.lines index = (w.linePair index).1 ++ '\n' :: ((w.linePair index).2 ++ ['\n']) := by
  simp only [lines, linePair, List.append_assoc, List.cons_append, List.nil_append]

theorem newline_notMem_linePair (index : String) (w : BulkWrite) :
    '\n' ∉ (w.linePair index).1 ∧ '\n' ∉ (w.linePair index).2 :=
  ⟨newline_notMem_render _, newline_notMem_render _⟩

theorem read?_action (index : String) (w : BulkWrite) :
    read? (w.linePair index).1 = some (w.action index) := by
  have hstrings : ∀ m ∈ [("_index", Json.str index), ("_id", Json.str w.id)],
      Legible 125 m.2 := by
    simp only [List.forall_mem_cons]
    exact ⟨.str _, .str _, List.forall_mem_nil _⟩
  have hlegible :
      Legible 127 (.obj [("index", .obj [("_index", .str index), ("_id", .str w.id)])]) :=
    .obj (List.forall_mem_singleton.mpr (.obj hstrings))
  exact hlegible.read?_render_ordered

end BulkWrite

theorem splitOn_bulkLines (index : String) (writes : List BulkWrite) :
    splitOn '\n' (bulkLines index writes) =
      (writes.map (BulkWrite.linePair index)).flatMap (fun p => [p.1, p.2]) ++ [[]] := by
  induction writes with
  | nil => rfl
  | cons w writes ih =>
    have hlines : bulkLines index (w :: writes) = (w.linePair index).1 ++ '\n' ::
        ((w.linePair index).2 ++ '\n' :: bulkLines index writes) := by
      simp only [bulkLines, List.flatMap_cons, BulkWrite.lines_eq, List.append_assoc,
        List.cons_append, List.nil_append]
    obtain ⟨haction, hsource⟩ := w.newline_notMem_linePair index
    rw [hlines, splitOn_append_cons haction, splitOn_append_cons hsource, ih]
    rfl

theorem getLast?_bulkLines (hne : writes ≠ []) : (bulkLines index writes).getLast? = some '\n' := by
  obtain rfl | ⟨before, w, rfl⟩ := List.eq_nil_or_concat' writes
  · exact absurd rfl hne
  · rw [bulkLines, List.flatMap_append, List.flatMap_singleton, BulkWrite.lines,
      ← List.append_assoc, List.getLast?_concat]

/-- The two lines ask for a resource to be put under an id. It is read out of its line as it is
stored, and this is the resource itself if all of it has a text of its own. -/
structure Carries (index : String) (u : String × Resource) (lines : List Char × List Char) :
    Prop where
  action : read? lines.1 =
    some (object [("index", object [("_index", .str index), ("_id", .str u.1)])])
  source : read? lines.2 =
    some { u.2 with id := u.1, path := Path.normalize u.2.path : Resource }.toJson
  stored : (read? lines.2).bind Resource.ofJson? =
    some { u.2.stored with id := u.1, path := Path.normalize u.2.path }
  resource : (∀ x ∈ u.2.document.floats, x.isFinite = true) →
    (∀ t ∈ u.2.document.times, t.IsSettled) →
      (read? lines.2).bind Resource.ofJson? =
        some { u.2 with id := u.1, path := Path.normalize u.2.path }

theorem carries_linePair (index : String) (u : String × Resource) :
    Carries index u ((BulkWrite.ofResource u.1 u.2).linePair index) := by
  have hsource : read? ((BulkWrite.ofResource u.1 u.2).linePair index).2 =
      some { u.2 with id := u.1, path := Path.normalize u.2.path : Resource }.toJson :=
    Resource.read?_render_toJson _
  have hstored : (read? ((BulkWrite.ofResource u.1 u.2).linePair index).2).bind Resource.ofJson? =
      some { u.2.stored with id := u.1, path := Path.normalize u.2.path } := by
    rw [hsource, Option.bind_some, Resource.ofJson?_toJson]
    rfl
  refine ⟨BulkWrite.read?_action index _, hsource, hstored, fun hfinite htimes => ?_⟩
  rw [hstored, u.2.stored_eq_self_iff.mpr ⟨hfinite, htimes⟩]

/-- The body that a client sends when it carries out some upserts of a batch at once. -/
structure IsBodyOf (c : Client) (us : List (String × Resource)) (body : List Char) : Prop where
  sent : ∃ writes result,
    (∀ {σ : Type} (wire : Wire σ),
      us.mapM (fun u => (c.executor wire).prepare u.1 u.2) = .ok writes) ∧
    Asks (fun wire => (c.executor wire).flush writes)
      ((c.address ["_bulk"] [("refresh", "true")]).map
        (c.requestTo .post (some ⟨"application/x-ndjson", String.ofList body⟩))) result
  getLast : body.getLast? = some '\n'
  lines : ∃ lines, splitOn '\n' body = lines.flatMap (fun p => [p.1, p.2]) ++ [[]] ∧
    List.Forall₂ (Carries c.index) us lines

/-- Any writes are carried by two lines each, and by nothing else. -/
theorem bulk_body_carries_writes (c : Client) (us : List (String × Resource)) (hne : us ≠ []) :
    ∃ body, IsBodyOf c us body := by
  let writes := us.map fun u => BulkWrite.ofResource u.1 u.2
  refine ⟨bulkLines c.index writes, ⟨writes, _, fun wire => List.mapM_pure, c.asks_write writes⟩,
    getLast?_bulkLines (by simpa [writes] using hne), writes.map (BulkWrite.linePair c.index),
    splitOn_bulkLines c.index writes, ?_⟩
  rw [List.forall₂_map_right_iff, List.forall₂_map_right_iff, List.forall₂_same]
  exact fun u _ => carries_linePair c.index u

/-- Ids and names that look like the end of a line with an action behind it. -/
theorem bulk_body_carries_lines_in_names :
    let c : Client := ⟨⟨"http".toList, some (.domain "localhost".toList), some 9200, false, ['/'],
      none, none⟩, "re\"sources\\", none, "spacesearch"⟩
    let forged : String := "a\"\x7d\x7d\n\x7b\"delete\":\x7b\"_id\":\"b\"\x7d\x7d\r\n\x00"
    let place : GeoCoordinates := ⟨some ⟨0x7FF8000000000000⟩, none, some ⟨0x3FB999999999999A⟩⟩
    let r : Resource := ⟨"", "r", forged, "", .file, false, false,
      { Document.empty with name := forged, location := some place }⟩
    let us : List (String × Resource) := [(forged, r), ("", .bare "\n" "\n" "\n"), (forged, r)]
    us ≠ [] ∧ ∃ body, IsBodyOf c us body := by
  intro c forged place r us
  have hne : us ≠ [] := List.cons_ne_nil _ _
  exact ⟨hne, bulk_body_carries_writes c us hne⟩

end ResourceIndex.Cluster
