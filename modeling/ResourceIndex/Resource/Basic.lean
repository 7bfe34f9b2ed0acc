import ResourceIndex.Identity
import ResourceIndex.Number.Binary64
import ResourceIndex.Resource.Tags
import ResourceIndex.Timestamp.Basic
/-
The indexed resource: its ids and place in a space, its state, and the content that is searched.
-/
namespace ResourceIndex

inductive ResourceKind where
  | file | container | symlink | reference
deriving DecidableEq, Repr, Inhabited

namespace ResourceKind

def name : ResourceKind → String
  | file => "file"
  | container => "container"
  | symlink => "symlink"
  | reference => "reference"

def ofName? (s : String) : Option ResourceKind :=
  [file, container, symlink, reference].find? fun k => k.name == s

/-- The kind that a `type:` restriction asks for, in any case of its letters. -/
def ofQueryValue? (s : List Char) : Option ResourceKind :=
  let word := String.ofList (Text.lowerAscii s)
  if word = "file" then some file
  else if word = "folder" ∨ word = "container" ∨ word = "directory" then some container
  else none

end ResourceKind

structure Audio where
  album : Option String
  albumArtist : Option String
  artist : Option String
  bitrate : Option Int64
  composers : Option String
  copyright : Option String
  disc : Option Int32
  discCount : Option Int32
  duration : Option Int64
  genre : Option String
  hasDrm : Option Bool
  isVariableBitrate : Option Bool
  title : Option String
  track : Option Int32
  trackCount : Option Int32
  year : Option Int32
deriving DecidableEq, Repr

structure Image where
  width : Option Int32
  height : Option Int32
deriving DecidableEq, Repr

structure GeoCoordinates where
  altitude : Option Binary64
  latitude : Option Binary64
  longitude : Option Binary64
deriving DecidableEq, Repr

structure Photo where
  cameraMake : Option String
  cameraModel : Option String
  exposureDenominator : Option Binary64
  exposureNumerator : Option Binary64
  fNumber : Option Binary64
  focalLength : Option Binary64
  iso : Option Int32
  orientation : Option Int32
  takenDateTime : Option Timestamp
deriving DecidableEq, Repr

/-- The searched content of a resource and its metadata. -/
structure Document where
  name : String
  title : String
  size : UInt64
  modified : Option Timestamp
  mimeType : String
  content : String
  tags : TagSet
  audio : Option Audio
  image : Option Image
  location : Option GeoCoordinates
  photo : Option Photo
deriving DecidableEq, Repr

def Document.empty : Document := ⟨"", "", 0, none, "", "", .empty, none, none, none, none⟩

instance : Inhabited Document := ⟨.empty⟩

namespace Document

def isAudio (d : Document) : Bool := "audio/".toList.isPrefixOf d.mimeType.toList

end Document

structure Resource where
  /-- The text of the resource's id, which is the key of its document. -/
  id : String
  /-- The text of the id of the space root. -/
  rootId : String
  path : String
  parentId : String
  kind : ResourceKind
  deleted : Bool
  hidden : Bool
  document : Document
deriving DecidableEq, Repr, Inhabited

namespace Resource

/-- A live file with nothing but an id, a space root and a path. -/
def bare (id rootId path : String) : Resource :=
  ⟨id, rootId, path, "", .file, false, false, .empty⟩

def isContainer (r : Resource) : Bool := r.kind == .container

/-- The resource at another place, named by the last segment of its path. -/
def relocate (r : Resource) (path : String) : Resource :=
  let path := Path.normalize path
  { r with path := path, document := { r.document with name := Path.baseName path } }

end Resource

end ResourceIndex
