import ResourceIndex.Json.Printer
import ResourceIndex.Json.Record
import ResourceIndex.Resource.Basic
import ResourceIndex.Timestamp.Text
/-
Resources as JSON values, which is the form in which both indexes store them. The content stands
beside the ids and the flags; a metadata block that is present holds all of its keys.
-/
namespace ResourceIndex

open Json

namespace Timestamp

def toJson (t : Timestamp) : Json := .str t.text

def ofJson? : Json → Option Timestamp
  | .str s => read? s.toList
  | _ => none

end Timestamp

namespace ResourceId

def toJson (id : ResourceId) : Json := object [
  ("storage_id", .str id.storageId), ("space_id", .str id.spaceId), ("opaque_id", .str id.opaqueId)]

def ofJson? (v : Json) : Option ResourceId := do
  let m ← record? ["storage_id", "space_id", "opaque_id"] 3 v
  return {
    storageId := ← m.required? "storage_id" string?
    spaceId := ← m.required? "space_id" string?
    opaqueId := ← m.required? "opaque_id" string? }

end ResourceId

namespace SpaceId

def toJson (id : SpaceId) : Json := object [
  ("storage_id", .str id.storageId), ("space_id", .str id.spaceId)]

def ofJson? (v : Json) : Option SpaceId := do
  let m ← record? ["storage_id", "space_id"] 2 v
  return {
    storageId := ← m.required? "storage_id" string?
    spaceId := ← m.required? "space_id" string? }

end SpaceId

namespace Reference

def toJson (r : Reference) : Json := object [
  ("resource_id", r.resourceId.toJson), ("path", .str r.path)]

def ofJson? (v : Json) : Option Reference := do
  let m ← record? ["resource_id", "path"] 2 v
  return {
    resourceId := ← m.required? "resource_id" ResourceId.ofJson?
    path := ← m.required? "path" string? }

end Reference

namespace ResourceKind

def toJson (k : ResourceKind) : Json := .str k.name

/-- A kind is its name, or an object with the name as its only member and null as its value. -/
def ofJson? : Json → Option ResourceKind
  | .str s => ofName? s
  | .obj [(s, .null)] => ofName? s
  | _ => none

end ResourceKind

def Json.int32 (n : Int32) : Json := .int n.toInt

def Json.int64 (n : Int64) : Json := .int n.toInt

/-- A number that is not finite is written as one that is missing. -/
def Json.number (x : Option Binary64) : Json := option .float (x.filter Binary64.isFinite)

namespace Audio

def fields : List String := [
  "album", "album_artist", "artist", "bitrate", "composers", "copyright", "disc", "disc_count",
  "duration", "genre", "has_drm", "is_variable_bitrate", "title", "track", "track_count", "year"]

def members (a : Audio) : Members := [
  ("album", option .str a.album), ("album_artist", option .str a.albumArtist),
  ("artist", option .str a.artist), ("bitrate", option int64 a.bitrate),
  ("composers", option .str a.composers), ("copyright", option .str a.copyright),
  ("disc", option int32 a.disc), ("disc_count", option int32 a.discCount),
  ("duration", option int64 a.duration), ("genre", option .str a.genre),
  ("has_drm", option .bool a.hasDrm), ("is_variable_bitrate", option .bool a.isVariableBitrate),
  ("title", option .str a.title), ("track", option int32 a.track),
  ("track_count", option int32 a.trackCount), ("year", option int32 a.year)]

def toJson (a : Audio) : Json := object a.members

def ofJson? (v : Json) : Option Audio := do
  let m ← record? fields 0 v
  return {
    album := ← m.optional? "album" string?
    albumArtist := ← m.optional? "album_artist" string?
    artist := ← m.optional? "artist" string?
    bitrate := ← m.optional? "bitrate" int64?
    composers := ← m.optional? "composers" string?
    copyright := ← m.optional? "copyright" string?
    disc := ← m.optional? "disc" int32?
    discCount := ← m.optional? "disc_count" int32?
    duration := ← m.optional? "duration" int64?
    genre := ← m.optional? "genre" string?
    hasDrm := ← m.optional? "has_drm" bool?
    isVariableBitrate := ← m.optional? "is_variable_bitrate" bool?
    title := ← m.optional? "title" string?
    track := ← m.optional? "track" int32?
    trackCount := ← m.optional? "track_count" int32?
    year := ← m.optional? "year" int32? }

end Audio

namespace Image

def members (i : Image) : Members := [
  ("width", option int32 i.width), ("height", option int32 i.height)]

def toJson (i : Image) : Json := object i.members

def ofJson? (v : Json) : Option Image := do
  let m ← record? ["width", "height"] 0 v
  return { width := ← m.optional? "width" int32?, height := ← m.optional? "height" int32? }

end Image

namespace GeoCoordinates

def members (g : GeoCoordinates) : Members := [
  ("altitude", number g.altitude), ("latitude", number g.latitude),
  ("longitude", number g.longitude)]

def toJson (g : GeoCoordinates) : Json := object g.members

def ofJson? (v : Json) : Option GeoCoordinates := do
  let m ← record? ["altitude", "latitude", "longitude"] 0 v
  return {
    altitude := ← m.optional? "altitude" float?
    latitude := ← m.optional? "latitude" float?
    longitude := ← m.optional? "longitude" float? }

end GeoCoordinates

namespace Photo

def fields : List String := [
  "camera_make", "camera_model", "exposure_denominator", "exposure_numerator", "f_number",
  "focal_length", "iso", "orientation", "taken_date_time"]

def members (p : Photo) : Members := [
  ("camera_make", option .str p.cameraMake), ("camera_model", option .str p.cameraModel),
  ("exposure_denominator", number p.exposureDenominator),
  ("exposure_numerator", number p.exposureNumerator),
  ("f_number", number p.fNumber), ("focal_length", number p.focalLength),
  ("iso", option int32 p.iso), ("orientation", option int32 p.orientation),
  ("taken_date_time", option Timestamp.toJson p.takenDateTime)]

def toJson (p : Photo) : Json := object p.members

def ofJson? (v : Json) : Option Photo := do
  let m ← record? fields 0 v
  return {
    cameraMake := ← m.optional? "camera_make" string?
    cameraModel := ← m.optional? "camera_model" string?
    exposureDenominator := ← m.optional? "exposure_denominator" float?
    exposureNumerator := ← m.optional? "exposure_numerator" float?
    fNumber := ← m.optional? "f_number" float?
    focalLength := ← m.optional? "focal_length" float?
    iso := ← m.optional? "iso" int32?
    orientation := ← m.optional? "orientation" int32?
    takenDateTime := ← m.optional? "taken_date_time" Timestamp.ofJson? }

end Photo

namespace Document

/-- A member that is left out when there is nothing to say. -/
def present {α : Type} (name : String) (encode : α → Json) : Option α → Members
  | some a => [(name, encode a)]
  | none => []

/-- The members of the content in the order of its fields; `block` makes a value of the members of
a metadata block. -/
def members (block : Members → Json) (d : Document) : Members :=
  [("name", .str d.name), ("title", .str d.title), ("size", .int d.size.toNat)] ++
  present "mtime" Timestamp.toJson d.modified ++
  [("mime_type", .str d.mimeType), ("content", .str d.content),
    ("tags", strings d.tags.toList)] ++
  present "audio" (fun a : Audio => block a.members) d.audio ++
  present "image" (fun i : Image => block i.members) d.image ++
  present "location" (fun g : GeoCoordinates => block g.members) d.location ++
  present "photo" (fun p : Photo => block p.members) d.photo

def ofMembers? (m : Members) : Option Document := do
  return {
    name := ← m.defaulted? "name" "" string?
    title := ← m.defaulted? "title" "" string?
    size := ← m.defaulted? "size" 0 uint64?
    modified := ← m.optional? "mtime" Timestamp.ofJson?
    mimeType := ← m.defaulted? "mime_type" "" string?
    content := ← m.defaulted? "content" "" string?
    tags := ← m.defaulted? "tags" .empty fun v => (list? string? v).map TagSet.ofList
    audio := ← m.optional? "audio" Audio.ofJson?
    image := ← m.optional? "image" Image.ofJson?
    location := ← m.optional? "location" GeoCoordinates.ofJson?
    photo := ← m.optional? "photo" Photo.ofJson? }

end Document

namespace Resource

def members (block : Members → Json) (r : Resource) : Members :=
  [("id", .str r.id), ("root_id", .str r.rootId), ("path", .str r.path),
    ("parent_id", .str r.parentId), ("resource_type", r.kind.toJson),
    ("deleted", .bool r.deleted), ("hidden", .bool r.hidden)] ++ r.document.members block

def toJson (r : Resource) : Json := object (r.members object)

/-- The text of a resource, with the members of each object in the order of the fields. -/
def text (r : Resource) : String := (Json.obj (r.members .obj)).text

/-- A resource is always an object, and its content stands among the other members. -/
def ofJson? : Json → Option Resource
  | .obj m => do
    return {
      id := ← Members.required? m "id" string?
      rootId := ← Members.required? m "root_id" string?
      path := ← Members.required? m "path" string?
      parentId := ← Members.defaulted? m "parent_id" "" string?
      kind := ← Members.defaulted? m "resource_type" .file ResourceKind.ofJson?
      deleted := ← Members.defaulted? m "deleted" false bool?
      hidden := ← Members.defaulted? m "hidden" false bool?
      document := ← Document.ofMembers? m }
  | _ => none

end Resource

end ResourceIndex
