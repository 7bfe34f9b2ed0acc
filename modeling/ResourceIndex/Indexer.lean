import ResourceIndex.Engine
/-
Keeping an index in step with storage: a space is read anew as a whole, and single resources are
moved, removed, restored or written as storage has them now.
-/
namespace ResourceIndex

structure Storage where
  /-- The present state of a resource, if it is still there. -/
  stat : Reference → Except IndexError (Option Resource)
  /-- All resources of a space, its root among them. -/
  list : SpaceId → Except IndexError (List Resource)

namespace Storage

/-- Resources by their ids, in ascending order of these. -/
abbrev Shelf := List (String × Resource)

def put (r : Resource) : Shelf → Shelf
  | [] => [(r.id, r)]
  | (id, x) :: rest =>
    if r.id < id then (r.id, r) :: (id, x) :: rest
    else if r.id = id then (id, r) :: rest
    else (id, x) :: put r rest

def remove (id : String) (shelf : Shelf) : Shelf := shelf.filter fun p => p.1 != id

def ofShelf (shelf : Shelf) : Storage where
  stat reference := .ok (shelf.lookup reference.resourceId.text)
  list space := .ok ((shelf.map (·.2)).filter fun r => r.rootId == space.rootId.text)

end Storage

/-- Index maintenance through an engine, in batches of a size that is not zero. -/
structure Indexer (σ ω : Type) where
  engine : Engine σ ω
  storage : Storage
  batchSize : Nat
  batchSize_pos : 0 < batchSize

namespace Indexer

variable {σ ω : Type}

def ofBatchSize (engine : Engine σ ω) (storage : Storage) (size : Nat) :
    Except IndexError (Indexer σ ω) :=
  if h : 0 < size then .ok ⟨engine, storage, size, h⟩ else .error .invalidBatchSize

def indexSpace (x : Indexer σ ω) (space : SpaceId) : Action σ Unit :=
  match x.storage.list space with
  | .error e => throw e
  | .ok resources => do
    x.engine.submitAll x.batchSize (resources.map fun r => .upsert r.id r)
    let _ ← x.engine.liveCount

def trashItem (x : Indexer σ ω) (id : ResourceId) : Action σ Unit :=
  x.engine.submit (.delete id.text)

def purgeItem (x : Indexer σ ω) (reference : Reference) : Action σ Unit :=
  x.engine.submit (.purge reference.resourceId.text false)

def purgeDeleted (x : Indexer σ ω) (space : SpaceId) : Action σ Unit :=
  x.engine.submit (.purge space.rootId.text true)

/-- Runs an action on what storage has; a resource that is gone by now is passed over. -/
def withCurrent (x : Indexer σ ω) (reference : Reference) (act : Resource → Action σ Unit) :
    Action σ Unit :=
  match x.storage.stat reference with
  | .error e => throw e
  | .ok none => pure ()
  | .ok (some r) => act r

def moveItem (x : Indexer σ ω) (reference : Reference) : Action σ Unit :=
  x.withCurrent reference fun r => x.engine.submit (.move r.id r.parentId r.path)

/-- Restores a resource, which may have come back at another place. -/
def restoreItem (x : Indexer σ ω) (reference : Reference) : Action σ Unit :=
  x.withCurrent reference fun r =>
    x.engine.submitAll x.batchSize [.restore r.id, .move r.id r.parentId r.path]

def upsertItem (x : Indexer σ ω) (reference : Reference) : Action σ Unit :=
  x.withCurrent reference fun r => x.engine.submit (.upsert r.id r)

end Indexer

end ResourceIndex
