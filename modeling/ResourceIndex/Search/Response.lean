import ResourceIndex.Resource.Basic
/- Search responses: the resources found, with what a client is shown of each. -/
namespace ResourceIndex

structure Entity where
  /-- The root of the space and the path below it. -/
  reference : Reference
  id : ResourceId
  parentId : Option ResourceId
  name : String
  size : UInt64
  kind : ResourceKind
  mimeType : String
  deleted : Bool
  tags : List String
  modified : Option Timestamp
  highlights : String
  audio : Option Audio
  image : Option Image
  location : Option GeoCoordinates
  photo : Option Photo
deriving DecidableEq, Repr

structure Match where
  score : Binary32
  entity : Entity
deriving DecidableEq, Repr

structure SearchResponse where
  found : List Match
  /-- The number of results there are, of which `found` may be a page. -/
  total : Int
deriving DecidableEq, Repr

namespace Match

/-- The result for a stored resource. A parent id that is not an id is passed over, and audio
metadata shows only where the content is audio. -/
def ofResource (r : Resource) (score : Binary32) (highlights : String) :
    Except InvalidId Match := do
  let rootId ← ResourceId.parse r.rootId
  let id ← ResourceId.parse r.id
  let d := r.document
  return {
    score := score
    entity := {
      reference := ⟨rootId, r.path⟩
      id := id
      parentId := ResourceId.parse? r.parentId
      name := d.name
      size := d.size
      kind := r.kind
      mimeType := d.mimeType
      deleted := r.deleted
      tags := d.tags.toList
      modified := d.modified
      highlights := highlights
      audio := if d.isAudio then d.audio else none
      image := d.image
      location := d.location
      photo := d.photo } }

end Match

namespace SearchResponse

/-- The results with the better scores first; equal scores keep their order. -/
def sortByScore (r : SearchResponse) : SearchResponse :=
  { r with found := r.found.mergeSort fun a b => b.score.rank ≤ a.score.rank }

end SearchResponse

end ResourceIndex
