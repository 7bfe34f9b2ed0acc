import ResourceIndex.Identity
/- Search requests: a query text, the place to search in and the number of results wanted. -/
namespace ResourceIndex

structure SearchRequest where
  query : String
  /-- Only what lies in the space of this reference, at its path or below, is asked for. -/
  reference : Option Reference
  /-- Negative for as many results as there are, zero for the default number. -/
  pageSize : Int
deriving DecidableEq, Repr, Inhabited

namespace SearchRequest

def defaultPageSize : Nat := 200

/-- The number of results under a limit of the index; neither means that there is no bound. -/
def resolvedPageSize (r : SearchRequest) (limit : Option Nat) : Option Nat :=
  if r.pageSize < 0 then limit
  else if r.pageSize = 0 then some defaultPageSize
  else match limit with
    | some limit => some (min r.pageSize.toNat limit)
    | none => some r.pageSize.toNat

def acceptsPath (r : SearchRequest) (path : String) : Bool :=
  match r.reference with
  | some reference => Path.isWithin path (Path.normalize reference.path)
  | none => true

end SearchRequest

end ResourceIndex
