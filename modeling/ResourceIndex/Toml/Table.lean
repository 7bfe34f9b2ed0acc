import ResourceIndex.Json.Basic
/-
Tables of a TOML document while it is read. A table is opened once by a header or is filled by
dotted keys, and what was opened in one way is not reopened in the other.
-/
namespace ResourceIndex.Toml

inductive Standing where
  /-- Opened by a header of its own, or the document itself. -/
  | opened
  /-- Only named on the way to another table; its own header may still come. -/
  | implied
  /-- Made by a key with dots. -/
  | dotted
deriving DecidableEq, Repr

inductive Node where
  | value : Json → Node
  | table : Standing → List (String × Node) → Node
  /-- The tables of an array, the latest first. -/
  | series : List (List (String × Node)) → Node
deriving Inhabited, Repr

abbrev Table := List (String × Node)

namespace Table

def put (key : String) (node : Node) : Table → Table
  | [] => [(key, node)]
  | (k, n) :: rest => if k = key then (key, node) :: rest else (k, n) :: put key node rest

/-- Changes the table at the end of a path of keys, tables that are missing being made. Dotted
keys do not lead into tables that were opened by headers. -/
def descend (byDots : Bool) (change : Standing → Table → Option Table) :
    List String → Standing → Table → Option Table
  | [], standing, t => change standing t
  | key :: path, _, t =>
    match t.lookup key with
    | none =>
      let standing := if byDots then .dotted else .implied
      (descend byDots change path standing []).map fun sub => put key (.table standing sub) t
    | some (.table standing sub) =>
      if byDots ∧ standing = .opened then none
      else (descend byDots change path standing sub).map fun sub => put key (.table standing sub) t
    | some (.series (latest :: earlier)) =>
      (descend byDots change path .opened latest).map fun sub =>
        put key (.series (sub :: earlier)) t
    | _ => none

/-- Adds a key with a value below a path of dotted keys; a key is given only once. -/
def define (path : List String) (key : String) (value : Json) : Table → Option Table :=
  descend true (fun standing t =>
    if standing = .dotted ↔ path = [] then none
    else match t.lookup key with
      | some _ => none
      | none => some (t ++ [(key, .value value)])) path .opened

def openTable (path : List String) (key : String) : Table → Option Table :=
  descend false (fun _ t =>
    match t.lookup key with
    | none => some (t ++ [(key, .table .opened [])])
    | some (.table .implied sub) => some (put key (.table .opened sub) t)
    | _ => none) path .opened

def openElement (path : List String) (key : String) : Table → Option Table :=
  descend false (fun _ t =>
    match t.lookup key with
    | none => some (t ++ [(key, .series [[]])])
    | some (.series earlier) => some (put key (.series ([] :: earlier)) t)
    | _ => none) path .opened

end Table

mutual

def Node.toJson : Node → Json
  | .value v => v
  | .table _ t => Json.object (membersOf t)
  | .series l => .arr (elementsOf l).reverse

def membersOf : List (String × Node) → Json.Members
  | [] => []
  | (k, n) :: rest => (k, n.toJson) :: membersOf rest

def elementsOf : List (List (String × Node)) → List Json
  | [] => []
  | t :: rest => Json.object (membersOf t) :: elementsOf rest

end

def Table.toJson (t : Table) : Json := Json.object (membersOf t)

end ResourceIndex.Toml
