import ResourceIndex.Text.Cut
/-
Paths inside a space. A canonical path is `.` for the root of the space, and otherwise `./` and
the segments below the root, joined by slashes.
-/
namespace ResourceIndex.Path

def root : String := "."

/-- What one segment does to the segments read so far: `..` takes the last one away. -/
def step (done : List (List Char)) (segment : List Char) : List (List Char) :=
  if segment = [] ∨ segment = ['.'] then done
  else if segment = ['.', '.'] then done.dropLast
  else done ++ [segment]

/-- The segments that are left when `.` and `..` are followed, never above the root. -/
def resolve (segments : List (List Char)) : List (List Char) := segments.foldl step []

/-- The segments of a text that lead from the root to what it names. -/
def segments (s : List Char) : List (List Char) := resolve (Text.splitOn '/' s)

def render : List (List Char) → List Char
  | [] => ['.']
  | segments => '.' :: '/' :: Text.join ['/'] segments

def normalize (path : String) : String := String.ofList (render (segments path.toList))

def baseName (path : String) : String :=
  if path = root then root else String.ofList (Text.afterLast '/' path.toList)

/-- Whether a path is the scope or lies below it; a slash at the end of either is ignored. -/
def isWithin (path scope : String) : Bool :=
  let p := Text.dropFinal '/' path.toList
  let s := Text.dropFinal '/' scope.toList
  s = [] || s = ['.'] || p = s ||
    match s.isPrefixOf? p with
    | some ('/' :: _) => true
    | _ => false

/-- The path with its part `old` exchanged for `new`, if it is `old` or lies below it. -/
def rebase? (path old new : String) : Option String :=
  if path = old then some new
  else match old.toList.isPrefixOf? path.toList with
    | some ('/' :: rest) => some (new ++ String.ofList ('/' :: rest))
    | _ => none

end ResourceIndex.Path
