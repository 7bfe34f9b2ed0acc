import ResourceIndex.Timestamp.Basic
import ResourceIndex.Text.Blank
import ResourceIndex.Text.Digits
/-
The text of a moment: date, `T`, time and `Z`, with as many groups of three fraction digits as are
needed. Reading is more liberal: any offset below a day, blanks between the parts, short numbers.
-/
namespace ResourceIndex.Timestamp

open Text (isBlank digitsValue)

def padded (width n : Nat) : List Char :=
  let digits := Nat.toDigits 10 n
  List.replicate (width - digits.length) '0' ++ digits

/-- Years of four digits have no sign. -/
def yearText (y : Int) : List Char :=
  if 0 ≤ y ∧ y ≤ 9999 then padded 4 y.toNat
  else (if y < 0 then '-' else '+') :: padded 4 y.natAbs

def fractionText (nano : Nat) : List Char :=
  if nano = 0 then []
  else if nano % 1000000 = 0 then '.' :: padded 3 (nano / 1000000)
  else if nano % 1000 = 0 then '.' :: padded 6 (nano / 1000)
  else '.' :: padded 9 nano

def render (t : Timestamp) : List Char :=
  let c := t.civil
  let (second, nano) :=
    if 1000000000 ≤ c.nano then (c.second + 1, c.nano - 1000000000) else (c.second, c.nano)
  yearText c.year ++ '-' :: padded 2 c.month ++ '-' :: padded 2 c.day ++
    'T' :: padded 2 c.hour ++ ':' :: padded 2 c.minute ++ ':' :: padded 2 second ++
    fractionText nano ++ ['Z']

def text (t : Timestamp) : String := String.ofList t.render

def dropBlanks (s : List Char) : List Char := s.dropWhile isBlank

/-- A number of at least one digit and at most `width` digits. -/
def number? (width : Nat) (s : List Char) : Option (Nat × List Char) :=
  let digits := (s.take width).takeWhile Char.isDigit
  if digits.isEmpty then none else some (digitsValue digits, s.drop digits.length)

/-- Blanks, a number and then one given character with blanks before it. -/
def numberThen? (width : Nat) (c : Char) (s : List Char) : Option (Nat × List Char) := do
  let (n, r) ← number? width (dropBlanks s)
  match dropBlanks r with
  | d :: r => if d = c then some (n, r) else none
  | [] => none

/-- A signed year of any length or a plain one of up to four digits, with the hyphen after it. -/
def year? (s : List Char) : Option (Int × List Char) :=
  match dropBlanks s with
  | '-' :: r => (signed r).map fun p => (-(p.1 : Int), p.2)
  | '+' :: r => (signed r).map fun p => ((p.1 : Int), p.2)
  | r => (numberThen? 4 '-' r).map fun p => ((p.1 : Int), p.2)
where
  signed (r : List Char) : Option (Nat × List Char) := do
    let (n, r') ← number? r.length r
    match dropBlanks r' with
    | '-' :: rest => some (n, rest)
    | _ => none

/-- Nanoseconds from the digits after the point; those after the ninth are dropped. -/
def fraction? (s : List Char) : Option (Nat × List Char) :=
  match s with
  | '.' :: r =>
    let digits := r.takeWhile Char.isDigit
    if digits.isEmpty then none
    else
      let kept := digits.take 9
      some (digitsValue (kept ++ List.replicate (9 - kept.length) '0'), r.dropWhile Char.isDigit)
  | r => some (0, r)

def offset? (s : List Char) : Option (Int × List Char) :=
  match s with
  | u :: t :: c :: r =>
    if u.toLower = 'u' && t.toLower = 't' && c.toLower = 'c' then some (0, r) else zone s
  | _ => zone s
where
  zone : List Char → Option (Int × List Char)
    | c :: r =>
      if c = 'Z' || c = 'z' then some (0, r)
      else if c = '+' then shift r
      else if c = '-' || c = '\u2212' then (shift r).map fun p => (-p.1, p.2)
      else none
    | [] => none
  shift : List Char → Option (Int × List Char)
    | h :: h' :: r =>
      match r.dropWhile fun c => c = ':' || isBlank c with
      | m :: m' :: rest =>
        if h.isDigit && h'.isDigit && m.isDigit && m.toNat < '6'.toNat && m'.isDigit then
          let minutes := digitsValue [h, h'] * 60 + digitsValue [m, m']
          if minutes < 1440 then some ((minutes : Int), rest) else none
        else none
      | _ => none
    | _ => none

/-- The civil time of the clock with the given reading; second 60 is a leap second. -/
def clock (year : Int) (month day hour minute second nano : Nat) : CivilTime :=
  if second = 60 then ⟨year, month, day, hour, minute, 59, nano + 1000000000⟩
  else ⟨year, month, day, hour, minute, second, nano⟩

def read? (s : List Char) : Option Timestamp := do
  let (year, s) ← year? s
  let (month, s) ← numberThen? 2 '-' s
  let (day, s) ← number? 2 (dropBlanks s)
  let s ← match s with
    | c :: r => if c = 'T' || c = 't' || c = ' ' then some r else none
    | [] => none
  let (hour, s) ← numberThen? 2 ':' s
  let (minute, s) ← numberThen? 2 ':' s
  let (second, s) ← number? 2 (dropBlanks s)
  let (nano, s) ← fraction? s
  let (minutes, s) ← offset? (dropBlanks s)
  if (dropBlanks s).isEmpty then
    let here ← ofCivil? (clock year month day hour minute second nano)
    ofCivil? (here.civil.minus minutes)
  else none

end ResourceIndex.Timestamp
