import ResourceIndex.Error
import ResourceIndex.Query.Automaton
import ResourceIndex.Resource.Basic
/-
The embedded store. It holds one document for each id, and a document stands for the resource that
is read out of it. A write puts a resource in the place of the document with its id, or removes a
document.
-/
namespace ResourceIndex

structure Store where
  docs : List Resource
deriving DecidableEq, Repr

inductive StoreWrite where
  | put (resource : Resource) : StoreWrite
  | remove (id : String) : StoreWrite
deriving DecidableEq, Repr

namespace Store

def empty : Store := ⟨[]⟩

instance : Inhabited Store := ⟨empty⟩

def get? (s : Store) (id : String) : Option Resource := s.docs.find? fun d => d.id == id

/-- Puts a resource in the place of the document with its id, else behind all documents. -/
def place (r : Resource) : List Resource → List Resource
  | [] => [r]
  | d :: ds => if d.id = r.id then r :: ds else d :: place r ds

def put (s : Store) (r : Resource) : Store := ⟨place r s.docs⟩

def remove (s : Store) (id : String) : Store := ⟨s.docs.filter fun d => d.id != id⟩

def write (s : Store) : StoreWrite → Store
  | .put r => s.put r
  | .remove id => s.remove id

def writeAll (s : Store) (writes : List StoreWrite) : Store := writes.foldl write s

def liveCount (s : Store) : Nat := s.docs.countP fun d => !d.deleted

def belowRegex (path : String) : List Char := Query.escapeRegex path.toList ++ ['/', '.', '*']

/-- The documents of a space whose path lies below a path. -/
def descendants (s : Store) (rootId path : String) : List Resource :=
  s.docs.filter fun d => d.rootId == rootId && Query.Regex.covers (belowRegex path) d.path.toList

/-- Looks up the documents below a path, for which the builder has to take the expression. -/
def findDescendants [RegexBuilder] (s : Store) (rootId path : String) :
    Except IndexError (List Resource) :=
  match RegexBuilder.refusal? (belowRegex path) with
  | some reason => .error (.store reason)
  | none => .ok (s.descendants rootId path)

end Store

end ResourceIndex
