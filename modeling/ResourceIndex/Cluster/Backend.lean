import ResourceIndex.Cluster.Batch
import ResourceIndex.Cluster.Mapping
import ResourceIndex.Engine
import ResourceIndex.Query.Parser
/-
The engine over a cluster. Connecting makes sure that the cluster answers, that the index is there
and that it is in good health.
-/
namespace ResourceIndex.Cluster

open Json

structure Health where
  status : String
  timedOut : Bool
deriving DecidableEq, Repr

def Health.ofJson? (v : Json) : Option Health := do
  let m ← record? ["status", "timed_out"] 1 v
  return {
    status := ← m.required? "status" string?
    timedOut := ← m.defaulted? "timed_out" false bool? }

structure SearchReply where
  total : Option Nat
  hits : List Hit
deriving Repr

namespace SearchReply

def highlight? : Json → Option String
  | .obj members => do
    let fields ← members.mapM fun (name, v) => (list? string? v).map fun l => (name, l)
    return ((fields.lookup "content").bind List.head?).getD ""
  | _ => none

def hit? (v : Json) : Option Hit := do
  let m ← record? ["_score", "_source", "highlight"] 2 v
  let score ← m.optional? "_score" float?
  return {
    score := (score.map Binary32.ofBinary64).getD ⟨0⟩
    resource := ← m.required? "_source" Resource.ofJson?
    highlights := ← m.defaulted? "highlight" "" highlight? }

def total? (v : Json) : Option Nat := do
  (← record? ["value"] 1 v).required? "value" nat?

def hits? (v : Json) : Option SearchReply := do
  let m ← record? ["total", "hits"] 1 v
  return {
    total := ← m.optional? "total" total?
    hits := ← m.defaulted? "hits" [] (list? hit?) }

def ofJson? (v : Json) : Option SearchReply := do
  (← record? ["hits"] 1 v).required? "hits" hits?

end SearchReply

def maxPageSize : Nat := 1000

def searchBody (request : SearchRequest) (query : Dsl) : Json :=
  let place := match request.reference with
    | some r => [Dsl.term .rootId r.resourceId.text]
    | none => []
  object [
    ("query", (Dsl.filtered [query] (.flag .deleted false :: place)).toJson),
    ("size", .nat ((request.resolvedPageSize (some maxPageSize)).getD maxPageSize)),
    ("track_total_hits", .bool true),
    ("highlight", object [
      ("pre_tags", strings ["<mark>"]),
      ("post_tags", strings ["</mark>"]),
      ("fields", object [("content", object [])])])]

namespace Client

variable {σ : Type} (wire : Wire σ) (c : Client)

/-- Creates the index; it is as well when another client has just done so. -/
def createIndex : Action σ Unit :=
  tryCatch (do let _ ← c.json wire .put [c.index] [] (some Mapping.definition)) fun e =>
    match e with
    | .httpStatus _ message =>
      if Text.contains "resource_already_exists_exception".toList message.toList then pure ()
      else throw e
    | _ => throw e

def ensureIndex : Action σ Unit := do
  if !(← c.isPresent wire [c.index]) then c.createIndex wire

/-- Asks for the health of the index, for which the cluster may take some milliseconds. -/
def checkHealth (timeout : Nat) : Action σ Unit := do
  let limit := Text.natString timeout ++ "ms"
  let v ← tryCatch (c.json wire .get ["_cluster", "health", c.index]
    [("local", "true"), ("timeout", limit)] none) fun e =>
      throw (.unhealthy ("health check failed: " ++ e.message))
  let health ← .ofExcept (formed Health.ofJson? v)
  if health.timedOut then throw (.unhealthy ("health check timed out after " ++ limit))
  if health.status ≠ "green" ∧ health.status ≠ "yellow" then
    throw (.unhealthy ("index '" ++ c.index ++ "' is " ++ health.status))

def connect (s : ClusterSettings) : Action σ Client := do
  let c ← .ofExcept (ofSettings s)
  c.ping wire
  c.ensureIndex wire
  c.checkHealth wire s.healthTimeout
  return c

/-- Answers a search request in the order of the cluster, whose count is taken as a signed number of
64 bits. -/
def search (request : SearchRequest) : Action σ SearchResponse := do
  match Query.parse request.query with
  | .error e => throw (.ofFault e)
  | .ok q =>
    let v ← c.json wire .post [c.index, "_search"] [] (some (searchBody request (.ofQuery q)))
    let reply ← .ofExcept (formed SearchReply.ofJson? v)
    let total := reply.total.getD reply.hits.length
    .ofExcept (SearchResponse.ofHits request reply.hits (Int64.ofNat total).toInt)

def liveCount : Action σ Nat := do
  let body := object [("query", (Dsl.flag .deleted false).toJson)]
  let v ← c.json wire .post [c.index, "_count"] [] (some body)
  match (v.get? "count").bind nat? with
  | some n => return n
  | none => throw (.queryFailure "count response without count")

def engine : Engine σ BulkWrite where
  toExecutor := c.executor wire
  search request := c.search wire request
  liveCount := c.liveCount wire
  openBatch := StagedBatch.ofSize

end Client

end ResourceIndex.Cluster
