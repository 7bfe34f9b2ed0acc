import ResourceIndex.Path
import ResourceIndex.Text.Blank
/-
Identities. A resource is addressed by the storage and the space it lives in and by an id of its
own; the text `storage$space!own` is the key of its document. Storage and own id may be missing.
-/
namespace ResourceIndex

structure SpaceId where
  storageId : String
  spaceId : String
deriving DecidableEq, Repr, Inhabited

structure ResourceId where
  storageId : String
  spaceId : String
  opaqueId : String
deriving DecidableEq, Repr, Inhabited

/-- A path that starts at a resource, most often the root of a space. -/
structure Reference where
  resourceId : ResourceId
  path : String
deriving DecidableEq, Repr, Inhabited

structure InvalidId where
  text : String
deriving DecidableEq, Repr, Inhabited

namespace InvalidId

def message (e : InvalidId) : String := "invalid resource id '" ++ e.text ++ "'"

end InvalidId

namespace SpaceId

/-- The text of a space; a missing storage leaves no mark. -/
def text (id : SpaceId) : String :=
  if id.storageId.isEmpty then id.spaceId else id.storageId ++ "$" ++ id.spaceId

/-- The root container of the space: its own id is that of the space. -/
def rootId (id : SpaceId) : ResourceId := ⟨id.storageId, id.spaceId, id.spaceId⟩

def rootReference (id : SpaceId) : Reference := ⟨id.rootId, Path.root⟩

/-- Reads the text of a space, in which no blank is passed over. -/
def ofChars (s : List Char) : Except InvalidId SpaceId :=
  let wrong : Except InvalidId SpaceId := .error ⟨String.ofList s⟩
  if s = [] ∨ '!' ∈ s then wrong
  else
    let (storage, space) := (Text.cutAt? '$' s).getD ([], s)
    if space = [] ∨ '$' ∈ space then wrong
    else .ok ⟨String.ofList storage, String.ofList space⟩

def parse (s : String) : Except InvalidId SpaceId := ofChars s.toList

end SpaceId

namespace ResourceId

def space (id : ResourceId) : SpaceId := ⟨id.storageId, id.spaceId⟩

def isSpaceRoot (id : ResourceId) : Bool := !id.spaceId.isEmpty && id.opaqueId == id.spaceId

def text (id : ResourceId) : String :=
  if id.opaqueId.isEmpty then id.space.text else id.space.text ++ "!" ++ id.opaqueId

/-- Reads the text of a resource without blanks around it. -/
def ofChars (s : List Char) : Except InvalidId ResourceId :=
  if s = [] then .error ⟨""⟩
  else
    let (storage, own) := (Text.cutAt? '!' s).getD (s, [])
    match SpaceId.ofChars storage with
    | .error e => .error e
    | .ok space =>
      if '!' ∈ own then .error ⟨String.ofList s⟩
      else .ok ⟨space.storageId, space.spaceId, String.ofList own⟩

/-- Reads the text of a resource; blanks around it are passed over. -/
def parse (s : String) : Except InvalidId ResourceId := ofChars (Text.trim s.toList)

def parse? (s : String) : Option ResourceId := (parse s).toOption

end ResourceId

namespace Reference

def space (r : Reference) : SpaceId := r.resourceId.space

def text (r : Reference) : String := r.resourceId.text ++ ":" ++ r.path

end Reference

end ResourceIndex
