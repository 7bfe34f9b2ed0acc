import ResourceIndex.Toml.Quoted
import ResourceIndex.Text.Cut
/- Writing TOML documents: tables of keys with strings, whole numbers and truth values. -/
namespace ResourceIndex.Toml

inductive Scalar where
  | text : String → Scalar
  | number : Nat → Scalar
  | truth : Bool → Scalar
deriving DecidableEq, Repr

namespace Scalar

/-- The written form of a value; a number beyond signed 64 bits has none. -/
def render? : Scalar → Option (List Char)
  | text s => some (quoted s.toList)
  | number n => if n ≤ Int64.maxValue.toInt then some (Text.natText n) else none
  | truth b => some (if b then "true" else "false").toList

def toJson : Scalar → Json
  | text s => .str s
  | number n => .nat n
  | truth b => .bool b

end Scalar

structure Block where
  name : String
  entries : List (String × Scalar)
deriving DecidableEq, Repr

namespace Block

def line? (key : String) (v : Scalar) : Option (List Char) := do
  return key.toList ++ [' ', '=', ' '] ++ (← v.render?) ++ ['\n']

def render? (b : Block) : Option (List Char) := do
  let lines ← b.entries.mapM fun (key, v) => line? key v
  return '[' :: b.name.toList ++ [']', '\n'] ++ lines.flatten

end Block

/-- The text of a document: its tables with an empty line between two of them. -/
def render? (blocks : List Block) : Option String := do
  return String.ofList (Text.join ['\n'] (← blocks.mapM Block.render?))

end ResourceIndex.Toml
