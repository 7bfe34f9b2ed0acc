import ResourceIndex.Cluster.Cascade
import ResourceIndex.Cluster.Client
import ResourceIndex.Json.Record
import ResourceIndex.Resource.Codec
/-
Batches on a cluster. A group of writes is one bulk request of two lines for each write; a subtree
operation looks up its root and is carried out by the cluster itself. Work that the cluster only
did in part is a failure.
-/
namespace ResourceIndex.Cluster

open Json

structure BulkWrite where
  id : String
  source : Json
deriving Repr

namespace BulkWrite

def ofResource (id : String) (r : Resource) : BulkWrite :=
  ⟨id, { r with id := id, path := Path.normalize r.path : Resource }.toJson⟩

def action (index : String) (w : BulkWrite) : Json :=
  object [("index", object [("_index", .str index), ("_id", .str w.id)])]

def lines (index : String) (w : BulkWrite) : List Char :=
  (w.action index).render ++ ['\n'] ++ w.source.render ++ ['\n']

end BulkWrite

def bulkLines (index : String) (writes : List BulkWrite) : List Char :=
  writes.flatMap (BulkWrite.lines index)

def failureReason (failure : Json) : String :=
  let told := match failure.get? "reason" with
    | some v => some v
    | none => (failure.get? "cause").bind (Json.get? "reason")
  match told with
  | some (.str reason) => reason
  | _ => failure.text

def any? (v : Json) : Option Json := some v

structure BulkReply where
  hasErrors : Bool
  errors : List Json
deriving Repr

namespace BulkReply

def itemError? (v : Json) : Option (Option Json) := do
  (← record? ["error"] 0 v).optional? "error" any?

def item? : Json → Option (List Json)
  | .obj members => do
    return (← members.mapM fun (_, v) => itemError? v).filterMap id
  | _ => none

def ofJson? (v : Json) : Option BulkReply := do
  let m ← record? ["errors", "items"] 0 v
  return {
    hasErrors := ← m.defaulted? "errors" false bool?
    errors := (← m.defaulted? "items" [] (list? item?)).flatten }

/-- Accepts the reply to a number of writes if all of them were carried out. -/
def check (total : Nat) (r : BulkReply) : Except IndexError Unit :=
  if !r.hasErrors then .ok ()
  else .error (.bulkFailure r.errors.length total
    ((r.errors.head?.map failureReason).getD "unknown"))

end BulkReply

structure ByQueryReply where
  failures : List Json
  versionConflicts : Nat
deriving Repr

namespace ByQueryReply

def ofJson? (v : Json) : Option ByQueryReply := do
  let m ← record? ["failures", "version_conflicts"] 0 v
  return {
    failures := ← m.defaulted? "failures" [] (list? any?)
    versionConflicts := ← m.defaulted? "version_conflicts" 0 nat? }

/-- Accepts the reply to a change that was carried out as a whole. -/
def check (endpoint : String) (r : ByQueryReply) : Except IndexError Unit :=
  match r.failures with
  | failure :: _ => .error (.queryFailure (endpoint ++ " reported " ++
      Text.natString r.failures.length ++ " failures, first: " ++ failureReason failure))
  | [] =>
    if 0 < r.versionConflicts then .error (.queryFailure (endpoint ++ " hit " ++
      Text.natString r.versionConflicts ++ " version conflicts"))
    else .ok ()

end ByQueryReply

def formed {α : Type} (read : Json → Option α) (v : Json) : Except IndexError α :=
  match read v with
  | some a => .ok a
  | none => .error (.serialization "unexpected form")

namespace Client

variable {σ : Type} (wire : Wire σ) (c : Client)

def write (writes : List BulkWrite) : Action σ Unit := do
  let reply ← .ofExcept (formed BulkReply.ofJson? (← c.bulk wire (bulkLines c.index writes)))
  .ofExcept (reply.check writes.length)

def root (id : String) : Action σ Resource := do
  match ← c.source? wire id with
  | none => throw (.notFound id)
  | some source => .ofExcept (formed Resource.ofJson? source)

def change (x : ByQuery) : Action σ Unit := do
  let v ← c.json wire .post [c.index, x.endpoint]
    [("refresh", "true"), ("wait_for_completion", "true")] (some x.toJson)
  let reply ← .ofExcept (formed ByQueryReply.ofJson? v)
  .ofExcept (reply.check x.endpoint)

def executor : Executor σ BulkWrite where
  prepare id r := .ok (.ofResource id r)
  flush writes := c.write wire writes
  apply x := do c.change wire (.ofCascade (← c.root wire x.id) x.action)

end Client

end ResourceIndex.Cluster
