import ResourceIndex.Query.Glob
/-
The regular expressions that the index runs over whole values: literal characters, a dot for any
character but a line feed, and a dot with a star for any run of these.
-/
namespace ResourceIndex.Query

inductive Piece where
  | char : Char → Piece
  | any : Piece
  | run : Piece
deriving DecidableEq, Repr

namespace Regex

/-- Reads a regular expression; none for one with other operators than a dot and a star on it. -/
def read? : List Char → Option (List Piece)
  | [] => some []
  | '.' :: '*' :: s => (read? s).map (.run :: ·)
  | '.' :: s => (read? s).map (.any :: ·)
  | '\\' :: c :: s => if isRegexSpecial c then (read? s).map (.char c :: ·) else none
  | c :: s => if isRegexSpecial c && !(['#', '&', '-', '~'].contains c) then none
    else (read? s).map (.char c :: ·)

/-- Whether the text is a run of characters other than line feeds and then one that `rest` takes. -/
def afterRun (rest : List Char → Bool) : List Char → Bool
  | [] => rest []
  | x :: s => rest (x :: s) || (x != '\n' && afterRun rest s)

/-- Whether the pieces, one after another, make up the whole text. -/
def fits : List Piece → List Char → Bool
  | [], s => s.isEmpty
  | .char c :: ps, s =>
    match s with
    | x :: s => x == c && fits ps s
    | [] => false
  | .any :: ps, s =>
    match s with
    | x :: s => x != '\n' && fits ps s
    | [] => false
  | .run :: ps, s => afterRun (fits ps) s

def covers (regex s : List Char) : Bool :=
  match read? regex with
  | some ps => fits ps s
  | none => false

end Regex

end ResourceIndex.Query
