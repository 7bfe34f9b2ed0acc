import ResourceIndex.Indexer
import ResourceIndex.Query.Scope
/-
The read path of clients. A scope in the query text is resolved to a place in storage, and a
response is kept for a second and given again to requests with the same key.
-/
namespace ResourceIndex

/-- A response that may be given again, with the time at which it was stored. -/
structure CachedResponse where
  key : String
  stored : Nat
  response : SearchResponse
deriving DecidableEq, Repr

/-- The responses that are kept, in milliseconds of a common clock. -/
abbrev SearchCache := List CachedResponse

namespace SearchCache

def lifetime : Nat := 1000

def isFresh (now : Nat) (c : CachedResponse) : Bool := now - c.stored < lifetime

/-- What is kept for a request: its query text, its page size and the place it searches. -/
def keyOf (r : SearchRequest) : String :=
  r.query ++ "|" ++ String.ofList (Text.intText r.pageSize) ++ "|" ++
    match r.reference with
    | some reference => reference.text
    | none => ""

def fresh? (cache : SearchCache) (now : Nat) (key : String) : Option SearchResponse :=
  (List.find? (fun c => c.key == key && isFresh now c) cache).map (·.response)

/-- Keeps a response and drops those that are not fresh any more. -/
def store (cache : SearchCache) (now : Nat) (key : String) (response : SearchResponse) :
    SearchCache :=
  ⟨key, now, response⟩ :: List.filter (fun c => isFresh now c && c.key != key) cache

end SearchCache

/-- Finds the place that a scope names, if it exists. -/
abbrev ScopeResolver := ResourceId → Except IndexError (Option Reference)

/-- Scopes by what storage has: the space root of the resource and its path. -/
def Storage.resolver (storage : Storage) : ScopeResolver := fun id =>
  match storage.stat ⟨id, Path.root⟩ with
  | .error e => .error e
  | .ok none => .ok none
  | .ok (some r) =>
    match ResourceId.parse r.rootId with
    | .error e => .error (.ofInvalidId e)
    | .ok root => .ok (some ⟨root, r.path⟩)

namespace SearchService

variable {σ : Type}

/-- The request with its scope taken out of the text and put in the place of the reference. -/
def withScope (resolve : ScopeResolver) (request : SearchRequest) :
    Except ServiceError SearchRequest :=
  let (query, scope) := Query.extractScope request.query
  let request := { request with query := query }
  match scope with
  | none => .ok request
  | some scope =>
    match ResourceId.parse scope with
    | .error e => .error (.ofIndexError (.ofInvalidId e))
    | .ok id =>
      match resolve id with
      | .error e => .error (.ofIndexError e)
      | .ok none => .error (.missingScope scope)
      | .ok (some reference) => .ok { request with reference := some reference }

/-- What a search gives: its result, the cache after it and the state of the engine after it. -/
structure Outcome (σ : Type) where
  result : Except ServiceError SearchResponse
  cache : SearchCache
  state : σ

def search (ask : SearchRequest → Action σ SearchResponse) (resolve : ScopeResolver) (now : Nat)
    (cache : SearchCache) (request : SearchRequest) (s : σ) : Outcome σ :=
  match withScope resolve request with
  | .error e => ⟨.error e, cache, s⟩
  | .ok request =>
    let key := SearchCache.keyOf request
    match cache.fresh? now key with
    | some response => ⟨.ok response, cache, s⟩
    | none =>
      match (ask request).run s with
      | (.error e, s) => ⟨.error (.ofIndexError e), cache, s⟩
      | (.ok response, s) =>
        let response := response.sortByScore
        ⟨.ok response, cache.store now key response, s⟩

def indexSpace {ω : Type} (x : Indexer σ ω) (space : SpaceId) (s : σ) :
    Except ServiceError Unit × σ :=
  match (x.indexSpace space).run s with
  | (.ok (), s) => (.ok (), s)
  | (.error e, s) => (.error (.ofIndexError e), s)

end SearchService

end ResourceIndex
