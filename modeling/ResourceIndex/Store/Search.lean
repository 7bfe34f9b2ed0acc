import ResourceIndex.Analysis.Snippet
import ResourceIndex.Engine
import ResourceIndex.Query.Parser
import ResourceIndex.Store.Cascade
import ResourceIndex.Store.Query
/-
Searching a store, and the store as an engine. The live documents that a query selects in the
space of the request are counted, a page of them is taken, and those elsewhere in the space are
dropped from the page.
-/
namespace ResourceIndex.Store

/-- The live documents that a plan selects, in one space when a root is given. -/
def selected (s : Store) (plan : Plan) (rootId : Option String) : List Resource :=
  s.docs.filter fun d => plan.selects d && !d.deleted &&
    match rootId with
    | some id => d.rootId == id
    | none => true

/-- The weight of a content token that is sought: the rarer it is, the more it counts. -/
def weight (s : Store) (token : List Char) : Rat :=
  let holding := s.docs.countP fun d =>
    (TextField.content.tokensOf d).any fun t => t.text == token
  1 / (1 + (holding : Rat))

def weights (s : Store) (plan : Plan) : List (List Char × Rat) :=
  plan.contentWords.eraseDups.map fun w => (w, s.weight w)

/-- A document as a hit. Scores depend on the layout of an index and are left at zero. -/
def hit (weights : List (List Char × Rat)) (d : Resource) : Hit :=
  ⟨⟨0⟩, d, String.ofList
    (Analysis.highlight (fun t => weights.lookup t) d.document.content.toList)⟩

/-- The number of results that is taken: at least one, at most the number of documents. -/
def pageLimit (s : Store) : Option Nat → Nat
  | some limit => min (max 1 limit) (max 1 s.docs.length)
  | none => max 1 s.docs.length

def search [RegexBuilder] (s : Store) (request : SearchRequest) :
    Except IndexError SearchResponse :=
  match Query.parse request.query with
  | .error e => .error (.ofFault e)
  | .ok q => do
    let plan ← Plan.compile q
    let found := s.selected plan (request.reference.map fun r => r.resourceId.text)
    let page := found.take (s.pageLimit (request.resolvedPageSize none))
    SearchResponse.ofHits request (page.map (hit (s.weights plan))) found.length

def engine [RegexBuilder] : Engine Store StoreWrite where
  toExecutor := executor
  search request := do
    match (← get).search request with
    | .ok response => pure response
    | .error e => throw e
  liveCount := do return (← get).liveCount
  openBatch := StagedBatch.ofSize

end ResourceIndex.Store
