import ResourceIndex.Settings.Codec
import ResourceIndex.Settings.Layer
import ResourceIndex.Toml.Reader
/-
Loading settings from a document and from environment variables, which win over the document.
Outside the engine a value of another kind is taken where it has a plain meaning.
-/
namespace ResourceIndex

namespace Reading

def answer? (s : String) : Option Bool :=
  match String.ofList (Text.lower s.toList) with
  | "true" | "on" | "yes" => some true
  | "false" | "off" | "no" => some false
  | _ => none

def lenientNat? : Json → Option Nat
  | .int n => if 0 ≤ n ∧ n < UInt64.size then some n.toNat else none
  | .bool b => some b.toNat
  | .float x => some x.nearestWord
  | .str s =>
    match answer? s with
    | some b => some b.toNat
    | none => Text.word? s.toList
  | _ => none

def lenientBool? : Json → Option Bool
  | .bool b => some b
  | .int n => some (n != 0)
  | .float x => some !x.isZero
  | .str s => if s = "1" then some true else if s = "0" then some false else answer? s
  | _ => none

def lenientString? : Json → Option String
  | .str s => some s
  | .bool b => some (if b then "true" else "false")
  | .int n => some (String.ofList (Text.intText n))
  | .float x => some (String.ofList x.plainText)
  | _ => none

/-- Numbers, texts and truth values stand for each other, and arrays may be too long. -/
def lenient : Reading where
  record? names
    | .obj m => some m
    | .arr l => some (names.zip l)
    | _ => none
  nat? := lenientNat?
  bool? := lenientBool?
  string? := lenientString?

end Reading

inductive SettingsError where
  /-- The document cannot be read, or its values do not fit. -/
  | unreadable : SettingsError
  | invalid : Settings.Fault → SettingsError
deriving DecidableEq, Repr

namespace Settings

/-- The settings of a document, if there is one, with environment variables put over it. -/
def load (document : Option String) (environment : List (String × String)) :
    Except SettingsError Settings := do
  let file ← match document with
    | none => pure []
    | some text =>
      match Toml.read? text with
      | some members => pure members
      | none => throw .unreadable
  let layers := overlay (overlay (.obj []) file) (environmentLayer environment)
  match ofJson? .lenient layers with
  | none => throw .unreadable
  | some s =>
    match s.validate with
    | .ok () => return s
    | .error fault => throw (.invalid fault)

end Settings

end ResourceIndex
