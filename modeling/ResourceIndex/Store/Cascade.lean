import ResourceIndex.Batch
import ResourceIndex.Resource.Stored
import ResourceIndex.Store.Basic
/-
Subtree operations on a store. The root is the document of the given id; when it is a container,
the documents below its path go with it. All that is affected is written in one step.
-/
namespace ResourceIndex.Store

/-- The documents below a root; only containers have any. -/
def findBelow [RegexBuilder] (s : Store) (root : Resource) : Except IndexError (List Resource) :=
  if root.isContainer then s.findDescendants root.rootId root.path else .ok []

def cascadeWrites (root : Resource) (descendants : List Resource) :
    CascadeAction → List StoreWrite
  | .move parentId location =>
    let moved := { root with parentId := parentId }.relocate location
    .put moved :: descendants.map fun d =>
      .put { d with path := (Path.rebase? d.path root.path moved.path).getD d.path }
  | .setDeleted deleted => (root :: descendants).map fun d => .put { d with deleted := deleted }
  | .purge onlyDeleted =>
    ((root :: descendants).filter fun d => !onlyDeleted || d.deleted).map fun d => .remove d.id

def cascade [RegexBuilder] (s : Store) (c : Cascade) : Except IndexError Store :=
  match s.get? c.id with
  | none => .error (.notFound c.id)
  | some root => do
    let found ← s.findBelow root
    return s.writeAll (cascadeWrites root found c.action)

def prepared (id : String) (r : Resource) : Resource :=
  { r.stored with id := id, path := Path.normalize r.path }

def executor [RegexBuilder] : Executor Store StoreWrite where
  prepare id r := .ok (.put (prepared id r))
  flush writes := modify fun s => s.writeAll writes
  apply c := do
    match (← get).cascade c with
    | .ok s => set s
    | .error e => throw e

end ResourceIndex.Store
