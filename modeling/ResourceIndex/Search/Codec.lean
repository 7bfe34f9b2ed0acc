import ResourceIndex.Resource.Codec
import ResourceIndex.Search.Request
import ResourceIndex.Search.Response
/- Search requests and responses as JSON values. -/
namespace ResourceIndex

open Json

namespace SearchRequest

def toJson (r : SearchRequest) : Json := object [
  ("query", .str r.query), ("reference", option Reference.toJson r.reference),
  ("page_size", .int r.pageSize)]

def ofJson? (v : Json) : Option SearchRequest := do
  let m ← record? ["query", "reference", "page_size"] 3 v
  return {
    query := ← m.required? "query" string?
    reference := ← m.optional? "reference" Reference.ofJson?
    pageSize := ← m.required? "page_size" (int? Int32.minValue.toInt Int32.maxValue.toInt) }

end SearchRequest

namespace Entity

def fields : List String := [
  "reference", "id", "parent_id", "name", "size", "resource_type", "mime_type", "deleted", "tags",
  "last_modified", "highlights", "audio", "image", "location", "photo"]

def toJson (e : Entity) : Json := object [
  ("reference", e.reference.toJson), ("id", e.id.toJson),
  ("parent_id", option ResourceId.toJson e.parentId), ("name", .str e.name),
  ("size", .int e.size.toNat), ("resource_type", e.kind.toJson), ("mime_type", .str e.mimeType),
  ("deleted", .bool e.deleted), ("tags", strings e.tags),
  ("last_modified", option Timestamp.toJson e.modified), ("highlights", .str e.highlights),
  ("audio", option Audio.toJson e.audio), ("image", option Image.toJson e.image),
  ("location", option GeoCoordinates.toJson e.location), ("photo", option Photo.toJson e.photo)]

def ofJson? (v : Json) : Option Entity := do
  let m ← record? fields 15 v
  return {
    reference := ← m.required? "reference" Reference.ofJson?
    id := ← m.required? "id" ResourceId.ofJson?
    parentId := ← m.optional? "parent_id" ResourceId.ofJson?
    name := ← m.required? "name" string?
    size := ← m.required? "size" uint64?
    kind := ← m.required? "resource_type" ResourceKind.ofJson?
    mimeType := ← m.required? "mime_type" string?
    deleted := ← m.required? "deleted" bool?
    tags := ← m.required? "tags" (list? string?)
    modified := ← m.optional? "last_modified" Timestamp.ofJson?
    highlights := ← m.required? "highlights" string?
    audio := ← m.optional? "audio" Audio.ofJson?
    image := ← m.optional? "image" Image.ofJson?
    location := ← m.optional? "location" GeoCoordinates.ofJson?
    photo := ← m.optional? "photo" Photo.ofJson? }

end Entity

namespace Match

/-- A score is written as the double of its value. -/
def toJson (m : Match) : Json := object [
  ("score", .float m.score.toBinary64), ("entity", m.entity.toJson)]

def ofJson? (v : Json) : Option Match := do
  let m ← record? ["score", "entity"] 2 v
  return {
    score := ← m.required? "score" fun v => (float? v).map Binary32.ofBinary64
    entity := ← m.required? "entity" Entity.ofJson? }

end Match

namespace SearchResponse

def toJson (r : SearchResponse) : Json := object [
  ("matches", .arr (r.found.map Match.toJson)), ("total_matches", .int r.total)]

def ofJson? (v : Json) : Option SearchResponse := do
  let m ← record? ["matches", "total_matches"] 2 v
  return {
    found := ← m.required? "matches" (list? Match.ofJson?)
    total := ← m.required? "total_matches" (int? Int64.minValue.toInt Int64.maxValue.toInt) }

end SearchResponse

end ResourceIndex
