import ResourceIndex.Analysis.Stemmer
import ResourceIndex.Text.Alphanumeric
import ResourceIndex.Text.Cut
import ResourceIndex.Text.Lowercase
/-
Tokens of analyzed fields. A text is cut into runs of letters and digits; a run of forty bytes or
more is dropped but keeps its position. Titles are lowered, contents are lowered and stemmed.
-/
namespace ResourceIndex.Analysis

/-- A token with its place among the runs of the text and the bytes it stands on. -/
structure Token where
  text : List Char
  position : Nat
  start : Nat
  stop : Nat
deriving DecidableEq, Repr

structure OpenRun where
  reversed : List Char
  start : Nat

/-- The runs of a text from a byte and a position on; `run` is the one that is being read. -/
def runsFrom (run : Option OpenRun) (byte position : Nat) : List Char → List Token
  | [] =>
    match run with
    | some r => [⟨r.reversed.reverse, position, r.start, byte⟩]
    | none => []
  | c :: s =>
    let next := byte + c.utf8Size
    if Text.isAlphanumeric c then
      match run with
      | some r => runsFrom (some ⟨c :: r.reversed, r.start⟩) next position s
      | none => runsFrom (some ⟨[c], byte⟩) next position s
    else
      match run with
      | some r => ⟨r.reversed.reverse, position, r.start, byte⟩ :: runsFrom none next (position + 1) s
      | none => runsFrom none next position s

def runs (s : List Char) : List Token := runsFrom none 0 0 s

/-- Tokens of this many bytes and more are not indexed. -/
def lengthLimit : Nat := 40

def tokensBy (f : List Char → List Char) (s : List Char) : List Token :=
  ((runs s).filter fun t => t.stop - t.start < lengthLimit).map fun t => { t with text := f t.text }

def titleTokens (s : List Char) : List Token := tokensBy Text.lowerChars s

def contentTokens (s : List Char) : List Token :=
  tokensBy (fun w => Stemmer.stem (Text.lowerChars w)) s

end ResourceIndex.Analysis
