import ResourceIndex.Batch
import ResourceIndex.Cluster.Query
/-
Subtree operations as the cluster carries them out: a query for the documents that are affected,
and a script that changes each of them, or their deletion.
-/
namespace ResourceIndex.Cluster

inductive Script where
  /-- The document `id` gets another parent and name, and the path `oldPath` at the start of a
  path becomes `newPath`. -/
  | move (id parentId name oldPath newPath : String) : Script
  | setDeleted (deleted : Bool) : Script
deriving DecidableEq, Repr

namespace Script

open Json

def source : Script → String
  | move .. =>
    "if (ctx._source.id == params.id) \x7b " ++
    "ctx._source.parent_id = params.parent_id; " ++
    "ctx._source.name = params.name; " ++
    "\x7d " ++
    "if (ctx._source.path == params.old_path) \x7b " ++
    "ctx._source.path = params.new_path; " ++
    "\x7d else if (ctx._source.path.startsWith(params.old_path + '/')) \x7b " ++
    "ctx._source.path = params.new_path + ctx._source.path.substring(params.old_path.length()); " ++
    "\x7d"
  | setDeleted _ => "ctx._source.deleted = params.deleted;"

def params : Script → Members
  | move id parentId name oldPath newPath => [
    ("id", .str id), ("parent_id", .str parentId), ("name", .str name),
    ("old_path", .str oldPath), ("new_path", .str newPath)]
  | setDeleted deleted => [("deleted", .bool deleted)]

def toJson (s : Script) : Json := object [
  ("lang", .str "painless"), ("source", .str s.source), ("params", object s.params)]

end Script

/-- The documents that belong to a root: of a container all at its path and below. -/
def subtree (root : Resource) : Dsl :=
  if root.isContainer then .filtered [] [.term .rootId root.rootId, .term .pathTree root.path]
  else .ids [root.id]

inductive ByQuery where
  | update (query : Dsl) (script : Script) : ByQuery
  | delete (query : Dsl) : ByQuery
deriving Repr

namespace ByQuery

open Json

def endpoint : ByQuery → String
  | update .. => "_update_by_query"
  | delete _ => "_delete_by_query"

def toJson : ByQuery → Json
  | update query script => object [("query", query.toJson), ("script", script.toJson)]
  | delete query => object [("query", query.toJson)]

def ofCascade (root : Resource) : CascadeAction → ByQuery
  | .move parentId location =>
    let path := Path.normalize location
    update (subtree root) (.move root.id parentId (Path.baseName path) root.path path)
  | .setDeleted deleted => update (subtree root) (.setDeleted deleted)
  | .purge onlyDeleted =>
    delete (if onlyDeleted then .filtered [] [subtree root, .flag .deleted true] else subtree root)

end ByQuery

end ResourceIndex.Cluster
