/- Decimal digits and the numbers they write. -/
namespace ResourceIndex.Text

def digitsValue (s : List Char) : Nat := s.foldl (fun n c => n * 10 + (c.toNat - 48)) 0

def natText (n : Nat) : List Char := Nat.toDigits 10 n

def intText (n : Int) : List Char := (if n < 0 then ['-'] else []) ++ natText n.natAbs

def natString (n : Nat) : String := String.ofList (natText n)

def hexValue? (c : Char) : Option Nat :=
  let n := c.toNat
  if 48 ≤ n && n ≤ 57 then some (n - 48)
  else if 97 ≤ n && n ≤ 102 then some (n - 87)
  else if 65 ≤ n && n ≤ 70 then some (n - 55)
  else none

end ResourceIndex.Text
