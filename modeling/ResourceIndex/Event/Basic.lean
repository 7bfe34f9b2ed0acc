import ResourceIndex.Resource.Codec
/- Changes in storage that the index has to follow. -/
namespace ResourceIndex

inductive ChangeEvent where
  | itemTrashed (id : ResourceId) (reference : Reference) : ChangeEvent
  | itemPurged (reference : Reference) : ChangeEvent
  | trashbinPurged (reference : Reference) : ChangeEvent
  | itemMoved (oldReference reference : Reference) : ChangeEvent
  | itemRestored (reference : Reference) : ChangeEvent
  | containerCreated (reference : Reference) : ChangeEvent
  | fileTouched (reference : Reference) : ChangeEvent
  | fileVersionRestored (reference : Reference) : ChangeEvent
  | fileUploaded (reference : Reference) : ChangeEvent
  | uploadReady (fileReference : Reference) : ChangeEvent
  | tagsAdded (reference : Reference) : ChangeEvent
  | tagsRemoved (reference : Reference) : ChangeEvent
  | spaceRenamed (spaceId : SpaceId) : ChangeEvent
deriving DecidableEq, Repr, Inhabited

namespace ChangeEvent

def kind : ChangeEvent → String
  | itemTrashed .. => "item-trashed"
  | itemPurged .. => "item-purged"
  | trashbinPurged .. => "trashbin-purged"
  | itemMoved .. => "item-moved"
  | itemRestored .. => "item-restored"
  | containerCreated .. => "container-created"
  | fileTouched .. => "file-touched"
  | fileVersionRestored .. => "file-version-restored"
  | fileUploaded .. => "file-uploaded"
  | uploadReady .. => "upload-ready"
  | tagsAdded .. => "tags-added"
  | tagsRemoved .. => "tags-removed"
  | spaceRenamed .. => "space-renamed"

/-- The space whose index the event touches; a moved item counts for its new place. -/
def space : ChangeEvent → SpaceId
  | spaceRenamed id => id
  | uploadReady r => r.space
  | itemTrashed _ r | itemPurged r | trashbinPurged r | itemMoved _ r | itemRestored r
  | containerCreated r | fileTouched r | fileVersionRestored r | fileUploaded r
  | tagsAdded r | tagsRemoved r => r.space

open Json

def toJson (e : ChangeEvent) : Json :=
  let reference (r : Reference) : Members := [("reference", r.toJson)]
  object <| ("type", .str e.kind) :: match e with
    | itemTrashed id r => ("id", id.toJson) :: reference r
    | itemMoved old r => ("old_reference", old.toJson) :: reference r
    | uploadReady r => [("file_reference", r.toJson)]
    | spaceRenamed id => [("space_id", id.toJson)]
    | itemPurged r | trashbinPurged r | itemRestored r | containerCreated r | fileTouched r
    | fileVersionRestored r | fileUploaded r | tagsAdded r | tagsRemoved r => reference r

/-- Reads the fields of an event of the given kind from an object or from an array of them. -/
def ofFields? (kind : String) (v : Json) : Option ChangeEvent :=
  let one (make : Reference → ChangeEvent) : Option ChangeEvent := do
    let m ← record? ["reference"] 1 v
    return make (← m.required? "reference" Reference.ofJson?)
  match kind with
  | "item-trashed" => do
    let m ← record? ["id", "reference"] 2 v
    return itemTrashed (← m.required? "id" ResourceId.ofJson?)
      (← m.required? "reference" Reference.ofJson?)
  | "item-purged" => one itemPurged
  | "trashbin-purged" => one trashbinPurged
  | "item-moved" => do
    let m ← record? ["old_reference", "reference"] 2 v
    return itemMoved (← m.required? "old_reference" Reference.ofJson?)
      (← m.required? "reference" Reference.ofJson?)
  | "item-restored" => one itemRestored
  | "container-created" => one containerCreated
  | "file-touched" => one fileTouched
  | "file-version-restored" => one fileVersionRestored
  | "file-uploaded" => one fileUploaded
  | "upload-ready" => do
    let m ← record? ["file_reference"] 1 v
    return uploadReady (← m.required? "file_reference" Reference.ofJson?)
  | "tags-added" => one tagsAdded
  | "tags-removed" => one tagsRemoved
  | "space-renamed" => do
    let m ← record? ["space_id"] 1 v
    return spaceRenamed (← m.required? "space_id" SpaceId.ofJson?)
  | _ => none

/-- An event is an object with its kind beside its fields, or an array with the kind in front. -/
def ofJson? (v : Json) : Option ChangeEvent :=
  match v with
  | .arr (.str kind :: fields) => ofFields? kind (.arr fields)
  | .obj m =>
    match m.lookup "type" with
    | some (.str kind) => ofFields? kind v
    | _ => none
  | _ => none

end ChangeEvent

end ResourceIndex
