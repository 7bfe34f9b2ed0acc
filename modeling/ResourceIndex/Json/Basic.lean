import ResourceIndex.Number.Binary64
/-
JSON values. Whole numbers and fractions are kept apart, and the members of an object are held in
ascending order of their names without repetition.
-/
namespace ResourceIndex

inductive Json where
  | null : Json
  | bool : Bool → Json
  | int : Int → Json
  | float : Binary64 → Json
  | str : String → Json
  | arr : List Json → Json
  | obj : List (String × Json) → Json
deriving Inhabited, Repr

namespace Json

/-- The members of an object, or of a record that is to be read. -/
abbrev Members := List (String × Json)

/-- Puts a member in its place; an earlier one of the same name is replaced. -/
def insert (name : String) (value : Json) : Members → Members
  | [] => [(name, value)]
  | (n, v) :: rest =>
    if name < n then (name, value) :: (n, v) :: rest
    else if name = n then (name, value) :: rest
    else (n, v) :: insert name value rest

/-- The members in ascending order of their names, the last of two with one name. -/
def Members.ordered (members : Members) : Members :=
  members.foldl (fun done m => insert m.1 m.2 done) []

def object (members : Members) : Json := .obj members.ordered

/-- A member of an object; other values have none. -/
def get? (name : String) : Json → Option Json
  | .obj members => members.lookup name
  | _ => none

def nat (n : Nat) : Json := .int n

def option {α : Type} (encode : α → Json) : Option α → Json
  | some a => encode a
  | none => .null

def strings (l : List String) : Json := .arr (l.map .str)

end Json

end ResourceIndex
