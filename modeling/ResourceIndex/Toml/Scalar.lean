import ResourceIndex.Json.Basic
import ResourceIndex.Number.Literal
/-
Values of TOML documents that are written without quotes: truth values, numbers, dates and times.
A date or time is taken as its text in the form of the standard.
-/
namespace ResourceIndex.Toml

/-- Digits without the underscores between them; one underscore may stand between two digits. -/
def grouped? (isDigit : Char → Bool) (s : List Char) : Option (List Char) :=
  let groups := Text.splitOn '_' s
  if groups.all fun g => !g.isEmpty && g.all isDigit then some groups.flatten else none

/-- The digits of a decimal number, which does not start with a zero in front of others. -/
def decimal? (s : List Char) : Option (List Char) := do
  let digits ← grouped? Char.isDigit s
  if digits.head? = some '0' ∧ s.length ≠ 1 then none else some digits

def inWord (n : Int) : Option Json :=
  if Int64.minValue.toInt ≤ n ∧ n ≤ Int64.maxValue.toInt then some (.int n) else none

def based? (base : Nat) (s : List Char) : Option Json := do
  let isDigit (c : Char) : Bool := ((Text.hexValue? c).getD base) < base
  let digits ← grouped? isDigit s
  inWord ((digits.filterMap Text.hexValue?).foldl (fun n v => n * base + v) 0 : Nat)

def integer? : List Char → Option Json
  | '0' :: 'x' :: s => based? 16 s
  | '0' :: 'o' :: s => based? 8 s
  | '0' :: 'b' :: s => based? 2 s
  | s => do
    let (negative, r) := Text.cutSign s
    let n := Text.digitsValue (← decimal? r)
    inWord (if negative then -(n : Int) else n)

/-- The digits before and after a point; without one, all of them stand before it. -/
def mantissa? (s : List Char) : Option (List Char × List Char) :=
  match Text.cutAt? '.' s with
  | some (whole, part) => do return (← decimal? whole, ← grouped? Char.isDigit part)
  | none => do return (← decimal? s, [])

/-- What an exponent with its letter writes; zero for an empty text. -/
def exponent? : List Char → Option Int
  | [] => some 0
  | _ :: r => do
    let (down, digits) := Text.cutSign r
    let n := Text.digitsValue (← grouped? Char.isDigit digits)
    return if down then -(n : Int) else n

/-- A number with a point, an exponent or both; one beyond the greatest double is refused, unless
it is negative. -/
def float? (s : List Char) : Option Json := do
  let (negative, r) := Text.cutSign s
  let front := r.takeWhile fun c => c != 'e' && c != 'E'
  let (whole, part) ← mantissa? front
  let e ← exponent? (r.drop front.length)
  let x := Binary64.ofDecimal negative (Text.digitsValue (whole ++ part)) (e - part.length)
  if x = Binary64.infinite false ∨ ¬(r.any fun c => c = '.' || c = 'e' || c = 'E') then none
  else some (.float x)

/-- A number of exactly `count` digits between two bounds, and what follows it. -/
def field? (count low high : Nat) (s : List Char) : Option (Nat × List Char) := do
  let n ← Text.natural? (s.take count)
  if (s.take count).length = count ∧ low ≤ n ∧ n ≤ high then some (n, s.drop count) else none

def after? (mark : Char) : List Char → Option (List Char)
  | c :: r => if c = mark then some r else none
  | [] => none

def isLeapYear (y : Nat) : Bool := y % 4 = 0 && (y % 100 ≠ 0 || y % 400 = 0)

def monthDays (y m : Nat) : Nat :=
  if m = 2 then if isLeapYear y then 29 else 28
  else if m = 4 ∨ m = 6 ∨ m = 9 ∨ m = 11 then 30 else 31

def date? (s : List Char) : Option (List Char × List Char) := do
  let (y, r) ← field? 4 0 9999 s
  let (m, r) ← field? 2 1 12 (← after? '-' r)
  let (_, r) ← field? 2 1 (monthDays y m) (← after? '-' r)
  return (s.take 10, r)

/-- A fraction of a second, of which at most nine digits count and no zeros at the end. -/
def secondPart? : List Char → Option (List Char × List Char)
  | '.' :: r =>
    let digits := r.takeWhile Char.isDigit
    let kept := ((digits.take 9).reverse.dropWhile (· = '0')).reverse
    if digits.isEmpty then none
    else some (if kept.isEmpty then [] else '.' :: kept, r.drop digits.length)
  | r => some ([], r)

def time? (s : List Char) : Option (List Char × List Char) := do
  let (_, r) ← field? 2 0 23 s
  let (_, r) ← field? 2 0 59 (← after? ':' r)
  let (_, r) ← field? 2 0 60 (← after? ':' r)
  let (part, r) ← secondPart? r
  return (s.take 8 ++ part, r)

def offset? : List Char → Option (List Char)
  | [] => some []
  | ['Z'] | ['z'] => some ['Z']
  | sign :: s => do
    if sign ≠ '+' ∧ sign ≠ '-' then none
    let (h, r) ← field? 2 0 23 s
    let (m, r) ← field? 2 0 59 (← after? ':' r)
    if r.isEmpty then some ((if h = 0 ∧ m = 0 then '+' else sign) :: s) else none

def timeWithOffset? (s : List Char) : Option (List Char) := do
  let (time, r) ← time? s
  return time ++ (← offset? r)

def moment? (s : List Char) : Option (List Char) :=
  match date? s with
  | some (date, []) => some date
  | some (date, c :: r) =>
    if c = 'T' ∨ c = 't' ∨ c = ' ' then (timeWithOffset? r).map fun t => date ++ 'T' :: t else none
  | none =>
    match time? s with
    | some (time, []) => some time
    | _ => none

def word? (s : List Char) : Option Json :=
  match String.ofList s with
  | "true" => some (.bool true)
  | "false" => some (.bool false)
  | "inf" | "+inf" => some (.float (.infinite false))
  | "-inf" => some (.float (.infinite true))
  | "nan" | "+nan" | "-nan" => some (.float .notANumber)
  | _ =>
    match moment? s with
    | some text => some (.str (String.ofList text))
    | none => (float? s).orElse fun _ => integer? s

/-- Characters of values that stand without quotes. -/
def isWordChar (c : Char) : Bool := c.isAlphanum || ['+', '-', '.', ':', '_'].contains c

/-- The word at the start of a text, and what follows it. A blank between a date and a time
belongs to the word. -/
def cutWord (s : List Char) : List Char × List Char :=
  let front := s.takeWhile isWordChar
  let rest := s.drop front.length
  match date? front, rest with
  | some (_, []), ' ' :: c :: r =>
    if c.isDigit then
      let time := (c :: r).takeWhile isWordChar
      (front ++ ' ' :: time, (c :: r).drop time.length)
    else (front, rest)
  | _, _ => (front, rest)

end ResourceIndex.Toml
