import ResourceIndex.Json.Basic
import ResourceIndex.Number.Literal
import ResourceIndex.Text.Lowercase
/-
Layers of settings. Names count in lower case, a later layer replaces values of an earlier one and
tables are merged name by name, and a name on the first level can be a path through tables and
arrays.
-/
namespace ResourceIndex.Settings

open Json (Members insert)

inductive PathStep where
  | member : String → PathStep
  | element : Int → PathStep
deriving DecidableEq, Repr

namespace PathStep

/-- Characters of names that can be steps of a path. -/
def isNameChar (c : Char) : Bool := c.isAlphanum || [' ', '_', '-'].contains c

/-- The steps after the first one: names after dots, and places between brackets. The number
bounds how many there are. -/
def rest? : Nat → List Char → Option (List PathStep)
  | _, [] => some []
  | 0, _ => none
  | fuel + 1, '.' :: s => do
    let name := s.takeWhile isNameChar
    if name.isEmpty then none
    else return member (String.ofList name) :: (← rest? fuel (s.drop name.length))
  | fuel + 1, '[' :: s => do
    let (place, s) ← Text.cutAt? ']' s
    let isSpace (c : Char) : Bool := [' ', '\t', '\n', '\r'].contains c
    let n ← Text.signedWord? (((place.dropWhile isSpace).reverse.dropWhile isSpace).reverse)
    return element n :: (← rest? fuel s)
  | _, _ => none

/-- The steps that a name stands for; a name that is no path is one step. -/
def ofName (name : String) : List PathStep :=
  let s := name.toList
  let first := s.takeWhile isNameChar
  match if first.isEmpty then none else rest? s.length (s.drop first.length) with
  | some steps => member (String.ofList first) :: steps
  | none => [member name]

end PathStep

def membersOf : Json → Members
  | .obj m => m
  | _ => []

def elementsOf : Json → List Json
  | .arr l => l
  | _ => []

/-- A name as it counts. -/
def lowered (name : String) : String := String.ofList (Text.lower name.toList)

mutual

/-- Sets a member of a table; a table is merged into what is there. -/
def put (name : String) (target : Json) : Json → Json
  | .obj incoming =>
    let m := membersOf target
    .obj (insert (lowered name) (putAll ((m.lookup (lowered name)).getD (.obj [])) incoming) m)
  | value => .obj (insert (lowered name) value (membersOf target))

def putAll (target : Json) : Members → Json
  | [] => target
  | (name, value) :: rest => putAll (put name target value) rest

end

/-- The elements of an array, with room for a place, and the place counted from the start. -/
def withRoom (l : List Json) (n : Int) : List Json × Nat :=
  let i := if n < 0 then l.length - n.natAbs else n.toNat
  (l ++ List.replicate (i + 1 - l.length) .null, i)

def putAt (value : Json) : List PathStep → Json → Json
  | [], _ => value
  | [.member name], target => put name target value
  | .member name :: path, target =>
    let m := membersOf target
    .obj (insert (lowered name) (putAt value path ((m.lookup (lowered name)).getD .null)) m)
  | .element n :: path, target =>
    let (l, i) := withRoom (elementsOf target) n
    .arr (l.set i (putAt value path (l.getD i .null)))

def overlay (base : Json) (layer : Members) : Json :=
  layer.foldl (fun target (name, value) => putAt value (PathStep.ofName name) target) base

/-- What names of environment variables begin with, in lower case. -/
def variableStart : List Char := "spacesearch_".toList

/-- A text with a dot for each pair of underscores. -/
def dotted : List Char → List Char
  | '_' :: '_' :: s => '.' :: dotted s
  | c :: s => c :: dotted s
  | [] => []

/-- The value of an environment variable: a truth value, a whole number, a fraction or a text. -/
def variableValue (s : String) : Json :=
  let truth := Text.lower s.toList
  if truth = "true".toList then .bool true
  else if truth = "false".toList then .bool false
  else match Text.signedWord? s.toList with
    | some n => .int n
    | none =>
      match Binary64.ofText? s.toList with
      | some x => .float x
      | none => .str s

def environmentLayer (entries : List (String × String)) : Members :=
  entries.filterMap fun (name, value) =>
    (variableStart.isPrefixOf? (Text.lower name.toList)).map fun path =>
      (String.ofList (dotted path), variableValue value)

end ResourceIndex.Settings
