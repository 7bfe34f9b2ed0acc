import ResourceIndex.Analysis.Token
import ResourceIndex.Text.Blank
/-
Highlights. A content is cut into fragments, the fragment with the best score is shown, and the
tokens in it that were sought are wrapped in tags.
-/
namespace ResourceIndex.Analysis

structure ByteRange where
  start : Nat
  stop : Nat
deriving DecidableEq, Repr

structure Snippet where
  fragment : List Char
  ranges : List ByteRange
deriving DecidableEq, Repr

namespace Snippet

def openTag : List Char := "<mark>".toList

def closeTag : List Char := "</mark>".toList

def slice (s : List Char) (start stop : Nat) : List Char :=
  let rec go (byte : Nat) : List Char → List Char
    | [] => []
    | c :: s =>
      if stop ≤ byte then []
      else if byte < start then go (byte + c.utf8Size) s
      else c :: go (byte + c.utf8Size) s
  go 0 s

/-- The fragment from a byte on; a range that begins before it or ends beyond the fragment is
passed over. -/
def renderFrom (fragment : List Char) (cursor : Nat) : List ByteRange → List Char
  | [] => slice fragment cursor (Text.byteLength fragment)
  | r :: rs =>
    if r.start < cursor ∨ Text.byteLength fragment < r.stop then renderFrom fragment cursor rs
    else slice fragment cursor r.start ++ openTag ++ slice fragment r.start r.stop ++ closeTag ++
      renderFrom fragment r.stop rs

/-- The marked text; nothing when there is nothing to mark. -/
def render (s : Snippet) : List Char :=
  if s.ranges.isEmpty then [] else renderFrom s.fragment 0 s.ranges

end Snippet

structure Fragment where
  start : Nat
  stop : Nat
  score : Rat
  ranges : List ByteRange

namespace Fragment

/-- A token that ends this many bytes after the start of a fragment begins the next one. -/
def width : Nat := 150

def openAt (byte : Nat) : Fragment := ⟨byte, byte, 0, []⟩

def add (f : Fragment) (weight : List Char → Option Rat) (t : Token) : Fragment :=
  match weight t.text with
  | some w =>
    { f with stop := t.stop, score := f.score + w, ranges := f.ranges ++ [⟨t.start, t.stop⟩] }
  | none => { f with stop := t.stop }

def split (weight : List Char → Option Rat) (f : Fragment) : List Token → List Fragment
  | [] => [f]
  | t :: ts =>
    if width < t.stop - f.start then f :: split weight ((openAt t.start).add weight t) ts
    else split weight (f.add weight t) ts

/-- The fragment with the best score, the earlier of two with one score. -/
def best? (fs : List Fragment) : Option Fragment :=
  (fs.filter fun f => !f.ranges.isEmpty).foldl
    (fun best f => match best with
      | some b => if b.score < f.score then some f else some b
      | none => some f) none

end Fragment

def highlight (weight : List Char → Option Rat) (content : List Char) : List Char :=
  let text := Text.trim content
  match Fragment.best? (Fragment.split weight (Fragment.openAt 0) (contentTokens text)) with
  | some f =>
    Snippet.render ⟨Snippet.slice text f.start f.stop,
      f.ranges.map fun r => ⟨r.start - f.start, r.stop - f.start⟩⟩
  | none => []

end ResourceIndex.Analysis
