import ResourceIndex.Batch
import ResourceIndex.Search.Request
import ResourceIndex.Search.Response
/-
A search index: it answers searches, counts its live documents and takes changes in batches.
-/
namespace ResourceIndex

structure Engine (σ ω : Type) extends Executor σ ω where
  search : SearchRequest → Action σ SearchResponse
  liveCount : Action σ Nat
  openBatch : Nat → Except IndexError (StagedBatch ω)

namespace Engine

variable {σ ω : Type}

/-- The size of the batch for a change that comes alone. -/
def singleBatchSize : Nat := 50

def submitAll (e : Engine σ ω) (size : Nat) (ms : List Mutation) : Action σ Unit :=
  match e.openBatch size with
  | .error error => throw error
  | .ok b => fun s =>
    let o := b.submitAll e.toExecutor ms s
    (o.result, o.state)

def submit (e : Engine σ ω) (m : Mutation) : Action σ Unit := e.submitAll singleBatchSize [m]

end Engine

structure Hit where
  score : Binary32
  resource : Resource
  highlights : String
deriving DecidableEq, Repr

namespace SearchResponse

/-- The results for the hits that lie where the request searches, in their order. -/
def matchesOf (request : SearchRequest) : List Hit → Except IndexError (List Match)
  | [] => .ok []
  | h :: hs =>
    if request.acceptsPath h.resource.path then
      match Match.ofResource h.resource h.score h.highlights with
      | .error e => .error (.ofInvalidId e)
      | .ok m => (matchesOf request hs).map (m :: ·)
    else matchesOf request hs

/-- The response for the hits of an index that counted `total`; each hit that lies elsewhere
lowers the count. -/
def ofHits (request : SearchRequest) (hits : List Hit) (total : Int) :
    Except IndexError SearchResponse := do
  let found ← matchesOf request hits
  let outside := hits.countP fun h => !request.acceptsPath h.resource.path
  return ⟨found, total - outside⟩

end SearchResponse

end ResourceIndex
