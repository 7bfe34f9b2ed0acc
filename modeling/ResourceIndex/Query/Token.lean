import ResourceIndex.Query.Basic
/-
The tokens of a query text. A token is a word up to the next blank, or up to and with a quoted
phrase; a hyphen directly before a token negates it.
-/
namespace ResourceIndex.Query

open Text (isBlank)

structure Token where
  negated : Bool
  word : List Char
  phrase : Option (List Char)
deriving DecidableEq, Repr

namespace Token

def closeQuote? : List Char → Option (List Char × List Char)
  | [] => none
  | c :: s => if c = '"' then some ([], s) else (closeQuote? s).map fun p => (c :: p.1, p.2)

/-- Where the word of a token ends: at a blank, at a quote or at the end of the text. -/
def endsWord (c : Char) : Bool := isBlank c || c == '"'

/-- The token that a text without leading blanks starts with, and what follows it. -/
def first? (s : List Char) : Option (Token × List Char) :=
  let negated := match s with
    | '-' :: c :: _ => !isBlank c
    | _ => false
  let s := if negated then s.drop 1 else s
  let word := s.takeWhile fun c => !endsWord c
  match s.dropWhile fun c => !endsWord c with
  | '"' :: rest => (closeQuote? rest).map fun p => (⟨negated, word, some p.1⟩, p.2)
  | rest => some (⟨negated, word, none⟩, rest)

/-- The tokens of a text; the first number bounds how many there can be. -/
def scanFrom : Nat → List Char → Except Fault (List Token)
  | 0, _ => .ok []
  | fuel + 1, s =>
    match s.dropWhile isBlank with
    | [] => .ok []
    | s =>
      match first? s with
      | none => .error .unterminatedQuote
      | some (t, rest) => (scanFrom fuel rest).map (t :: ·)

def scan (s : List Char) : Except Fault (List Token) := scanFrom s.length s

end Token

end ResourceIndex.Query
