import ResourceIndex.Error
import ResourceIndex.Json.Reader
import ResourceIndex.Resource.Codec
/-
Documents of the embedded index. Each field of a document is there for queries, and the last one
holds the text of the whole resource, out of which it is read when the document is found.
-/
namespace ResourceIndex

inductive IndexField where
  | id | rootId | parentId | path | kind | name | title | content | tag | mimeType | deleted
  | hidden | size | source
deriving DecidableEq, Repr

inductive IndexValue where
  | text : String → IndexValue
  | flag : Bool → IndexValue
  | count : UInt64 → IndexValue
deriving DecidableEq, Repr

/-- A field may stand more than once. -/
structure IndexDocument where
  values : List (IndexField × IndexValue)
deriving DecidableEq, Repr

namespace IndexDocument

def ofResource (r : Resource) : IndexDocument := ⟨
  [(.id, .text r.id), (.rootId, .text r.rootId), (.parentId, .text r.parentId),
    (.path, .text r.path), (.kind, .text r.kind.name), (.name, .text r.document.name),
    (.title, .text r.document.title), (.content, .text r.document.content)] ++
  r.document.tags.toList.map (fun tag => (.tag, .text tag)) ++
  [(.mimeType, .text r.document.mimeType), (.deleted, .flag r.deleted), (.hidden, .flag r.hidden),
    (.size, .count r.document.size), (.source, .text r.text)]⟩

def first? (d : IndexDocument) (field : IndexField) : Option IndexValue := d.values.lookup field

/-- The resource of a document; all its other fields are passed over. -/
def resource? (d : IndexDocument) : Except IndexError Resource :=
  match d.first? .source with
  | some (.text source) =>
    match (Json.ofText? source).bind Resource.ofJson? with
    | some r => .ok r
    | none => .error (.serialization "unexpected form")
  | _ => .error (.serialization "missing field `_source`")

end IndexDocument

end ResourceIndex
