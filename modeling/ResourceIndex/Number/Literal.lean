import ResourceIndex.Number.Binary64
import ResourceIndex.Text.Cut
import ResourceIndex.Text.Digits
/-
Decimal literals of numbers, the text of a double without an exponent, and the nearest natural
number to a double.
-/
namespace ResourceIndex

namespace Text

/-- An optional sign in front of a text; the first part says whether it is a minus. -/
def cutSign : List Char → Bool × List Char
  | '-' :: r => (true, r)
  | '+' :: r => (false, r)
  | r => (false, r)

def natural? (s : List Char) : Option Nat :=
  if s.isEmpty || !s.all Char.isDigit then none else some (digitsValue s)

/-- The number of up to 64 bits that digits with an optional plus sign write. -/
def word? (s : List Char) : Option Nat := do
  let n ← natural? (if s.head? = some '+' then s.drop 1 else s)
  if n < UInt64.size then some n else none

/-- The signed number of up to 64 bits that digits with an optional sign write. -/
def signedWord? (s : List Char) : Option Int := do
  let (negative, digits) := cutSign s
  let n ← natural? digits
  let value : Int := if negative then -(n : Int) else n
  if Int64.minValue.toInt ≤ value ∧ value ≤ Int64.maxValue.toInt then some value else none

end Text

namespace Binary64

def infinite (negative : Bool) : Binary64 := make negative BinaryFormat.double.infinity

def notANumber : Binary64 := make false (BinaryFormat.double.infinity + 1 <<< 51)

def isNaN (x : Binary64) : Bool := BinaryFormat.double.infinity < x.magnitude

def exponent? (s : List Char) : Option Int := do
  let (negative, digits) := Text.cutSign s
  let n ← Text.natural? digits
  return if negative then -(n : Int) else n

/-- The number of a literal without a sign: digits on at least one side of a point that may be
left out, and an optional exponent. -/
def unsigned? (negative : Bool) (s : List Char) : Option Binary64 := do
  let isMark (c : Char) : Bool := c = 'e' || c = 'E'
  let front := s.takeWhile fun c => !isMark c
  let (whole, part) := (Text.cutAt? '.' front).getD (front, [])
  if (whole ++ part).isEmpty || !(whole ++ part).all Char.isDigit then none
  else
    let e ← match s.drop front.length with
      | [] => some 0
      | _ :: r => exponent? r
    return ofDecimal negative (Text.digitsValue (whole ++ part)) (e - part.length)

/-- The number that a text writes, the names of infinity and of the missing number included. -/
def ofText? (s : List Char) : Option Binary64 :=
  let (negative, r) := Text.cutSign s
  let name := String.ofList (Text.lowerAscii r)
  if name = "inf" ∨ name = "infinity" then some (infinite negative)
  else if name = "nan" then some notANumber
  else unsigned? negative r

/-- Digits times a power of ten, without an exponent. -/
def positional (digits : List Char) (t : Int) : List Char :=
  let e := (digits.length : Int) + t
  if 0 ≤ t then digits ++ List.replicate t.toNat '0'
  else if 0 < e then digits.take e.toNat ++ '.' :: digits.drop e.toNat
  else ['0', '.'] ++ List.replicate (-e).toNat '0' ++ digits

/-- The text of a number that has no exponent and no more digits than are needed. -/
def plainText (x : Binary64) : List Char :=
  let sign := if x.isNegative then ['-'] else []
  if x.isNaN then "NaN".toList
  else if !x.isFinite then sign ++ "inf".toList
  else if x.magnitude = 0 then sign ++ ['0']
  else
    let (m, t) := BinaryFormat.double.shortest x.magnitude
    sign ++ positional (Text.natText m) t

/-- The natural number of up to 64 bits that is nearest to a number, a half going up; zero for what
is negative or no number. -/
def nearestWord (x : Binary64) : Nat :=
  let top := UInt64.size - 1
  if x.isNaN || x.isNegative then 0
  else if !x.isFinite then top
  else
    let (m, q) := BinaryFormat.double.decode x.magnitude
    min top <| if q < 0 then (2 * m + 1 <<< (-q).toNat) >>> (1 - q).toNat else m <<< q.toNat

def isZero (x : Binary64) : Bool := x.magnitude = 0

end Binary64

end ResourceIndex
