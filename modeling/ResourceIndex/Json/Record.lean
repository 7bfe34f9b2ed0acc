import ResourceIndex.Json.Basic
/-
Reading records out of JSON values. A record is an object, or an array of its fields in the order
of declaration; unknown members are passed over, and numbers, texts and truth values are never
taken for each other.
-/
namespace ResourceIndex.Json

/-- The members of a record with the given field names, of which the first `least` have to be
there when they are given as an array. -/
def record? (names : List String) (least : Nat) : Json → Option Members
  | .obj members => some members
  | .arr values =>
    if least ≤ values.length ∧ values.length ≤ names.length then some (names.zip values) else none
  | _ => none

namespace Members

variable {α : Type}

def required? (m : Members) (name : String) (read : Json → Option α) : Option α :=
  match m.lookup name with
  | some v => read v
  | none => none

/-- A field that has a value of its own when it is missing. -/
def defaulted? (m : Members) (name : String) (fallback : α) (read : Json → Option α) : Option α :=
  match m.lookup name with
  | some v => read v
  | none => some fallback

/-- A field that may be missing or null. -/
def optional? (m : Members) (name : String) (read : Json → Option α) : Option (Option α) :=
  match m.lookup name with
  | none => some none
  | some .null => some none
  | some v => (read v).map some

end Members

def string? : Json → Option String
  | .str s => some s
  | _ => none

def bool? : Json → Option Bool
  | .bool b => some b
  | _ => none

/-- A whole number between two bounds, both included. -/
def int? (low high : Int) : Json → Option Int
  | .int n => if low ≤ n ∧ n ≤ high then some n else none
  | _ => none

def int32? (v : Json) : Option Int32 :=
  (int? Int32.minValue.toInt Int32.maxValue.toInt v).map Int32.ofInt

def int64? (v : Json) : Option Int64 :=
  (int? Int64.minValue.toInt Int64.maxValue.toInt v).map Int64.ofInt

/-- A count of up to 64 bits. -/
def nat? (v : Json) : Option Nat := (int? 0 (UInt64.size - 1) v).map Int.toNat

def uint64? (v : Json) : Option UInt64 := (nat? v).map UInt64.ofNat

def float? : Json → Option Binary64
  | .int n => some (Binary64.ofInt n)
  | .float x => some x
  | _ => none

def list? {α : Type} (read : Json → Option α) : Json → Option (List α)
  | .arr l => l.mapM read
  | _ => none

end ResourceIndex.Json
