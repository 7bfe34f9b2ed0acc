import ResourceIndex.Text.Digits
import ResourceIndex.Text.Utf8
/-
Percent encoding. Control characters, characters beyond ASCII and those of a given set are written
as a percent sign and two hexadecimal digits for each byte.
-/
namespace ResourceIndex.Text

def upperHex (n : Nat) : Char := (Nat.digitChar n).toUpper

def percentByte (b : Nat) : List Char := ['%', upperHex (b / 16), upperHex (b % 16)]

def alwaysEncoded (c : Char) : Bool := c.toNat < 32 || 126 < c.toNat

def percentEncode (set : List Char) (s : List Char) : List Char :=
  s.flatMap fun c =>
    if alwaysEncoded c || set.contains c then (charBytes c).flatMap percentByte else [c]

/-- The bytes of a percent-encoded text; a percent sign without two digits stands for itself. -/
def percentDecode : List Char → List Nat
  | '%' :: a :: b :: r =>
    match hexValue? a, hexValue? b with
    | some x, some y => (x * 16 + y) :: percentDecode r
    | _, _ => charBytes '%' ++ percentDecode (a :: b :: r)
  | c :: r => charBytes c ++ percentDecode r
  | [] => []

/-- What a form field does not have to encode. -/
def isFormPlain (c : Char) : Bool := c.isAlphanum || ['*', '-', '.', '_'].contains c

def formEncode (s : List Char) : List Char :=
  s.flatMap fun c =>
    if c = ' ' then ['+'] else if isFormPlain c then [c] else (charBytes c).flatMap percentByte

end ResourceIndex.Text
