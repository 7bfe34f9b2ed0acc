/- Cutting a text at separators, and joining the pieces again. -/
namespace ResourceIndex.Text

/-- The pieces between the separators; there is always at least one. -/
def splitOn (sep : Char) : List Char → List (List Char)
  | [] => [[]]
  | c :: s =>
    if c = sep then [] :: splitOn sep s
    else match splitOn sep s with
      | [] => [[c]]
      | piece :: pieces => (c :: piece) :: pieces

def join (sep : List Char) : List (List Char) → List Char
  | [] => []
  | [piece] => piece
  | piece :: pieces => piece ++ sep ++ join sep pieces

/-- What stands before and after the first separator. -/
def cutAt? (sep : Char) : List Char → Option (List Char × List Char)
  | [] => none
  | c :: s =>
    if c = sep then some ([], s)
    else (cutAt? sep s).map fun p => (c :: p.1, p.2)

/-- What follows the last separator, or the whole text when there is none. -/
def afterLast (sep : Char) (s : List Char) : List Char :=
  (s.reverse.takeWhile (· != sep)).reverse

/-- The text without one trailing `c`, if it ends in one. -/
def dropFinal (c : Char) (s : List Char) : List Char :=
  if s.getLast? = some c then s.dropLast else s

def contains (piece : List Char) : List Char → Bool
  | [] => piece.isEmpty
  | c :: s => piece.isPrefixOf (c :: s) || contains piece s

def lowerAscii (s : List Char) : List Char := s.map Char.toLower

/-- Equality of texts up to the case of ASCII letters. -/
def sameAscii (s t : List Char) : Bool := lowerAscii s == lowerAscii t

def byteLength : List Char → Nat
  | [] => 0
  | c :: s => c.utf8Size + byteLength s

end ResourceIndex.Text
