import ResourceIndex.Error
/-
Ordered staging of changes. Writes of single resources are grouped; operations on a subtree are
addressed by the id of its root and have to see every write before them. A batch keeps the
operations in order, and a push makes one call for each group of writes and one for each subtree
operation.
-/
namespace ResourceIndex

/-- A computation over a state that may fail; what a failing one did to the state stays done. -/
abbrev Action (σ α : Type) := ExceptT IndexError (StateM σ) α

/-- What is known without looking at the state. -/
def Action.ofExcept {σ α : Type} (e : Except IndexError α) : Action σ α := ExceptT.mk (pure e)

inductive CascadeAction where
  /-- The root goes below another parent at another place, and all below goes with it. -/
  | move (parentId location : String) : CascadeAction
  | setDeleted (deleted : Bool) : CascadeAction
  /-- Documents are removed, or only those of them that are soft-deleted. -/
  | purge (onlyDeleted : Bool) : CascadeAction
deriving DecidableEq, Repr, Inhabited

structure Cascade where
  id : String
  action : CascadeAction
deriving DecidableEq, Repr, Inhabited

inductive Mutation where
  | upsert (id : String) (resource : Resource) : Mutation
  | cascade (c : Cascade) : Mutation
deriving DecidableEq, Repr

namespace Mutation

def move (id parentId location : String) : Mutation := cascade ⟨id, .move parentId location⟩

def delete (id : String) : Mutation := cascade ⟨id, .setDeleted true⟩

def restore (id : String) : Mutation := cascade ⟨id, .setDeleted false⟩

def purge (id : String) (onlyDeleted : Bool) : Mutation := cascade ⟨id, .purge onlyDeleted⟩

end Mutation

/-- How changes are carried out: on a state `σ`, with `ω` for a write that is ready to go. -/
structure Executor (σ ω : Type) where
  prepare : String → Resource → Except IndexError ω
  /-- Carries out a group of writes, which later calls see. -/
  flush : List ω → Action σ Unit
  apply : Cascade → Action σ Unit

inductive Staged (ω : Type) where
  | write : ω → Staged ω
  | cascade : Cascade → Staged ω
deriving DecidableEq, Repr

inductive Call (ω : Type) where
  | flush : List ω → Call ω
  | apply : Cascade → Call ω
deriving DecidableEq, Repr

namespace Call

/-- The call for a group of writes, none for an empty group. -/
def flushing {ω : Type} : List ω → List (Call ω)
  | [] => []
  | writes => [flush writes]

/-- The calls for the operations that follow a group of writes. -/
def groupFrom {ω : Type} (writes : List ω) : List (Staged ω) → List (Call ω)
  | [] => flushing writes
  | .write w :: rest => groupFrom (writes ++ [w]) rest
  | .cascade c :: rest => flushing writes ++ apply c :: groupFrom [] rest

def group {ω : Type} (staged : List (Staged ω)) : List (Call ω) := groupFrom [] staged

end Call

namespace Executor

variable {σ ω : Type}

def call (x : Executor σ ω) : Call ω → Action σ Unit
  | .flush writes => x.flush writes
  | .apply c => x.apply c

/-- Makes the calls in order up to the first that fails. -/
def run (x : Executor σ ω) : List (Call ω) → Action σ Unit
  | [] => pure ()
  | c :: cs => do
    x.call c
    x.run cs

/-- What a change becomes when it is staged; subtree operations are taken as they are. -/
def stageable (x : Executor σ ω) : Mutation → Except IndexError (Staged ω)
  | .upsert id resource => (x.prepare id resource).map .write
  | .cascade c => .ok (.cascade c)

end Executor

/-- A batch, which pushes by itself as soon as `size` operations are staged. -/
structure StagedBatch (ω : Type) where
  size : Nat
  size_pos : 0 < size
  staged : List (Staged ω)

namespace StagedBatch

variable {σ ω : Type}

/-- An empty batch; its size must not be zero. -/
def ofSize (size : Nat) : Except IndexError (StagedBatch ω) :=
  if h : 0 < size then .ok ⟨size, h, []⟩ else .error .invalidBatchSize

def length (b : StagedBatch ω) : Nat := b.staged.length

def cleared (b : StagedBatch ω) : StagedBatch ω := { b with staged := [] }

structure Outcome (σ ω : Type) where
  result : Except IndexError Unit
  batch : StagedBatch ω
  state : σ

/-- Carries out what is staged; whether this fails or not, nothing stays staged. -/
def push (b : StagedBatch ω) (x : Executor σ ω) (s : σ) : Outcome σ ω :=
  let (result, s) := (x.run (Call.group b.staged)).run s
  ⟨result, b.cleared, s⟩

/-- Puts an operation behind those that are staged, and pushes a full batch. -/
def stage (b : StagedBatch ω) (x : Executor σ ω) (op : Staged ω) (s : σ) : Outcome σ ω :=
  let b := { b with staged := b.staged ++ [op] }
  if b.size ≤ b.staged.length then b.push x s else ⟨.ok (), b, s⟩

/-- Stages a change; one that cannot be prepared leaves the batch as it is. -/
def submit (b : StagedBatch ω) (x : Executor σ ω) (m : Mutation) (s : σ) : Outcome σ ω :=
  match x.stageable m with
  | .ok op => b.stage x op s
  | .error e => ⟨.error e, b, s⟩

/-- Stages changes one after another up to the first failure, and then pushes. -/
def submitAll (b : StagedBatch ω) (x : Executor σ ω) : List Mutation → σ → Outcome σ ω
  | [], s => b.push x s
  | m :: ms, s =>
    match b.submit x m s with
    | ⟨.ok (), b, s⟩ => b.submitAll x ms s
    | failed => failed

inductive Request where
  | change (m : Mutation) : Request
  | push : Request
deriving DecidableEq, Repr

def serve (b : StagedBatch ω) (x : Executor σ ω) : Request → σ → Outcome σ ω
  | .change m, s => b.submit x m s
  | .push, s => b.push x s

/-- Serves requests one after another up to the first failure. -/
def serveAll (b : StagedBatch ω) (x : Executor σ ω) : List Request → σ → Outcome σ ω
  | [], s => ⟨.ok (), b, s⟩
  | r :: rs, s =>
    match b.serve x r s with
    | ⟨.ok (), b, s⟩ => b.serveAll x rs s
    | failed => failed

end StagedBatch

end ResourceIndex
