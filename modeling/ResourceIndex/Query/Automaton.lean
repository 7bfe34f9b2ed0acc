import ResourceIndex.Query.Regex
/-
Automata for regular expressions. The library that builds them is not a part of this one: what it
refuses is a parameter of all that runs an expression over an index. Here stands a builder that
goes by the number of states, which are the sets of places that a text may have led to.
-/
namespace ResourceIndex

/-- What builds automata; an expression may be refused, for the reason that is given. -/
class RegexBuilder where
  refusal? : List Char → Option String

namespace Query.Regex

/-- Which places of an expression have been reached, one before each piece and one at the end. -/
abbrev Places := List Bool

def start (ps : List Piece) : Places := true :: ps.map fun _ => false

def takes : Piece → Char → Bool
  | .char c, x => x == c
  | .any, x => x != '\n'
  | .run, _ => false

/-- The places after one more character. The first place is reached also if `skipped`, without the
character, or if `passed`, with it. -/
def advance (x : Char) (skipped passed : Bool) : List Piece → Places → Places
  | p :: ps, reached :: places =>
    let here := reached || skipped
    (passed || (p == .run && here && x != '\n')) ::
      advance x (p == .run && here) (takes p x && here) ps places
  | _, _ => [passed]

def letters (ps : List Piece) : List Char :=
  ps.filterMap fun
    | .char c => some c
    | _ => none

/-- Some character that is not of the list. -/
def stranger (l : List Char) : Char :=
  (((List.range (l.length + 1)).map Char.ofNat).find? fun c => !l.contains c).getD ' '

/-- Characters of which each other one is a double as far as the pieces can tell. -/
def alphabet (ps : List Piece) : List Char :=
  let l := '\n' :: letters ps
  (stranger l :: l).eraseDups

def successors (ps : List Piece) (places : Places) : List Places :=
  (alphabet ps).map fun x => advance x false false ps places

/-- All that is reached from the pending states, those that were seen before among them. There is
no answer if more than `room` states are new. -/
def explore {α : Type} [BEq α] (next : α → List α) : Nat → List α → List α → Option (List α)
  | 0, seen, pending => if pending.all seen.contains then some seen else none
  | room + 1, seen, pending =>
    match pending.dropWhile seen.contains with
    | [] => some seen
    | state :: rest => explore next room (state :: seen) (next state ++ rest)

def states? (limit : Nat) (ps : List Piece) : Option (List Places) :=
  explore (successors ps) limit [] [start ps]

end Query.Regex

open Query.Regex in
/-- A builder that refuses what it cannot read and what needs more states than the limit. -/
abbrev RegexBuilder.ofStateLimit (limit : Nat) : RegexBuilder where
  refusal? regex :=
    match read? regex with
    | none => some "regex parse error"
    | some ps => if (states? limit ps).isNone then some "too many states" else none

instance : RegexBuilder := .ofStateLimit 10000

end ResourceIndex
