import ResourceIndex.Json.Basic
import ResourceIndex.Text.Digits
/-
Reading JSON texts. Whole numbers beyond 64 bits and the negative zero become fractions, a number
that is too large for a double is refused, and so is a nesting of 128 levels.
-/
namespace ResourceIndex.Json

open Text (digitsValue hexValue?)

def isSpace (c : Char) : Bool := c = ' ' || c = '\n' || c = '\t' || c = '\r'

def skip (s : List Char) : List Char := s.dropWhile isSpace

def hexFour? (a b c d : Char) : Option Nat := do
  let a ← hexValue? a
  let b ← hexValue? b
  let c ← hexValue? c
  let d ← hexValue? d
  return ((a * 16 + b) * 16 + c) * 16 + d

def shortEscape? (c : Char) : Option Char :=
  if c = '"' || c = '\\' || c = '/' then some c
  else if c = 'n' then some '\n'
  else if c = 'r' then some '\r'
  else if c = 't' then some '\t'
  else if c = 'b' then some '\x08'
  else if c = 'f' then some '\x0c'
  else none

/-- The rest of a string after its opening quote, and what follows the closing one. -/
def unquote : List Char → Option (List Char × List Char)
  | [] => none
  | '"' :: r => some ([], r)
  | '\\' :: 'u' :: a :: b :: c :: d :: r =>
    match hexFour? a b c d with
    | none => none
    | some n =>
      if 0xDC00 ≤ n && n ≤ 0xDFFF then none
      else if 0xD800 ≤ n && n ≤ 0xDBFF then
        match r with
        | '\\' :: 'u' :: e :: f :: g :: h :: r' =>
          match hexFour? e f g h with
          | none => none
          | some m =>
            if 0xDC00 ≤ m && m ≤ 0xDFFF then
              (unquote r').map fun p =>
                (Char.ofNat (0x10000 + (n - 0xD800) * 0x400 + (m - 0xDC00)) :: p.1, p.2)
            else none
        | _ => none
      else (unquote r).map fun p => (Char.ofNat n :: p.1, p.2)
  | '\\' :: c :: r =>
    match shortEscape? c with
    | none => none
    | some x => (unquote r).map fun p => (x :: p.1, p.2)
  | c :: r => if c.toNat < 32 || c = '\\' then none else (unquote r).map fun p => (c :: p.1, p.2)

def digits? (negative : Bool) (s : List Char) : Option (Int × List Char) :=
  let ds := s.takeWhile Char.isDigit
  if ds.isEmpty then none
  else some (if negative then -(digitsValue ds : Int) else digitsValue ds, s.dropWhile Char.isDigit)

def exponent? : List Char → Option (Int × List Char)
  | '-' :: r => digits? true r
  | '+' :: r => digits? false r
  | r => digits? false r

/-- The number with the given sign, digits before and after the point, and exponent. -/
def fraction? (negative : Bool) (whole part : List Char) (e : Int) : Option Json :=
  let x := Binary64.ofDecimal negative (digitsValue (whole ++ part)) (e - part.length)
  if x.isFinite then some (.float x) else none

def whole? (negative : Bool) (digits : List Char) : Option Json :=
  let n := digitsValue digits
  if negative && (n = 0 || -(n : Int) < Int64.minValue.toInt) || UInt64.size ≤ n then
    fraction? negative digits [] 0
  else some (.int (if negative then -(n : Int) else n))

/-- The digits before the point; a zero stands alone. -/
def wholeDigits : List Char → List Char
  | '0' :: _ => ['0']
  | s => s.takeWhile Char.isDigit

/-- The digits after the point, if there is one, and what follows. -/
def partDigits : List Char → Option (List Char) × List Char
  | '.' :: r => (some (r.takeWhile Char.isDigit), r.dropWhile Char.isDigit)
  | r => (none, r)

def plain? (negative : Bool) (whole : List Char) : Option (List Char) → Option Json
  | none => whole? negative whole
  | some part => fraction? negative whole part 0

def scaled? (negative : Bool) (whole : List Char) (part : Option (List Char)) :
    List Char → Option (Json × List Char)
  | c :: r =>
    if c = 'e' || c = 'E' then do
      let (e, rest) ← exponent? r
      return (← fraction? negative whole (part.getD []) e, rest)
    else (plain? negative whole part).map fun v => (v, c :: r)
  | [] => (plain? negative whole part).map fun v => (v, [])

def unsigned? (negative : Bool) (s : List Char) : Option (Json × List Char) :=
  let whole := wholeDigits s
  let (part, r) := partDigits (s.drop whole.length)
  if whole.isEmpty || part == some [] then none else scaled? negative whole part r

def number? : List Char → Option (Json × List Char)
  | '-' :: r => unsigned? true r
  | r => unsigned? false r

mutual

/-- A value at the start of the text, blanks before it allowed, and what follows it. -/
def value? : Nat → Nat → List Char → Option (Json × List Char)
  | 0, _, _ => none
  | fuel + 1, depth, s =>
    match skip s with
    | 'n' :: 'u' :: 'l' :: 'l' :: r => some (.null, r)
    | 't' :: 'r' :: 'u' :: 'e' :: r => some (.bool true, r)
    | 'f' :: 'a' :: 'l' :: 's' :: 'e' :: r => some (.bool false, r)
    | '"' :: r => (unquote r).map fun p => (.str (String.ofList p.1), p.2)
    | '[' :: r =>
      if depth ≤ 1 then none
      else match skip r with
        | ']' :: r' => some (.arr [], r')
        | r' => (elements? fuel (depth - 1) r').map fun p => (.arr p.1, p.2)
    | '\x7b' :: r =>
      if depth ≤ 1 then none
      else match skip r with
        | '\x7d' :: r' => some (.obj [], r')
        | r' => (members? fuel (depth - 1) r').map fun p => (object p.1, p.2)
    | r => number? r

def elements? : Nat → Nat → List Char → Option (List Json × List Char)
  | 0, _, _ => none
  | fuel + 1, depth, s => do
    let (v, r) ← value? fuel depth s
    match skip r with
    | ']' :: r' => return ([v], r')
    | ',' :: r' =>
      let (vs, rest) ← elements? fuel depth r'
      return (v :: vs, rest)
    | _ => none

def members? : Nat → Nat → List Char → Option (Members × List Char)
  | 0, _, _ => none
  | fuel + 1, depth, s => do
    match skip s with
    | '"' :: r =>
      let (name, r) ← unquote r
      match skip r with
      | ':' :: r =>
        let (v, r) ← value? fuel depth r
        match skip r with
        | '\x7d' :: r' => return ([(String.ofList name, v)], r')
        | ',' :: r' =>
          let (ms, rest) ← members? fuel depth r'
          return ((String.ofList name, v) :: ms, rest)
        | _ => none
      | _ => none
    | _ => none

end

def read? (s : List Char) : Option Json :=
  match value? (2 * s.length + 2) 128 s with
  | some (v, r) => if (skip r).isEmpty then some v else none
  | none => none

def ofText? (s : String) : Option Json := read? s.toList

end ResourceIndex.Json
