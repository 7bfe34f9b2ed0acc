/- The bytes of a text in UTF-8, and base64 texts of bytes. -/
namespace ResourceIndex.Text

def charBytes (c : Char) : List Nat :=
  let n := c.toNat
  if n < 0x80 then [n]
  else if n < 0x800 then [0xC0 + n / 0x40, 0x80 + n % 0x40]
  else if n < 0x10000 then [0xE0 + n / 0x1000, 0x80 + n / 0x40 % 0x40, 0x80 + n % 0x40]
  else [0xF0 + n / 0x40000, 0x80 + n / 0x1000 % 0x40, 0x80 + n / 0x40 % 0x40, 0x80 + n % 0x40]

def bytesOf (s : List Char) : List Nat := s.flatMap charBytes

def isContinuation (b : Nat) : Bool := 0x80 ≤ b && b < 0xC0

/-- The character that the bytes start with and what follows it; none for an ill-formed start. -/
def firstChar? : List Nat → Option (Char × List Nat)
  | [] => none
  | a :: r =>
    if a < 0x80 then some (Char.ofNat a, r)
    else if 0xC2 ≤ a && a < 0xE0 then
      match r with
      | b :: r => if isContinuation b then some (Char.ofNat ((a - 0xC0) * 0x40 + (b - 0x80)), r) else none
      | _ => none
    else if 0xE0 ≤ a && a < 0xF0 then
      match r with
      | b :: c :: r =>
        let n := (a - 0xE0) * 0x1000 + (b - 0x80) * 0x40 + (c - 0x80)
        if isContinuation b && isContinuation c && 0x800 ≤ n && (n < 0xD800 || 0xDFFF < n) then
          some (Char.ofNat n, r)
        else none
      | _ => none
    else if 0xF0 ≤ a && a < 0xF5 then
      match r with
      | b :: c :: d :: r =>
        let n := (a - 0xF0) * 0x40000 + (b - 0x80) * 0x1000 + (c - 0x80) * 0x40 + (d - 0x80)
        if isContinuation b && isContinuation c && isContinuation d && 0x10000 ≤ n && n < 0x110000
        then some (Char.ofNat n, r) else none
      | _ => none
    else none

/-- The text of well-formed bytes; the number bounds the characters. -/
def decodeFrom? : Nat → List Nat → Option (List Char)
  | _, [] => some []
  | 0, _ => none
  | fuel + 1, bytes => do
    let (c, rest) ← firstChar? bytes
    return c :: (← decodeFrom? fuel rest)

def ofBytes? (bytes : List Nat) : Option (List Char) := decodeFrom? bytes.length bytes

def base64Digits : List Char :=
  "ABCDEFGHIJKLMNOPQRSTUVWXYZabcdefghijklmnopqrstuvwxyz0123456789+/".toList

def base64Digit (n : Nat) : Char := base64Digits.getD n '='

/-- The base64 text of bytes, filled up to groups of four. -/
def base64 : List Nat → List Char
  | a :: b :: c :: r =>
    base64Digit (a / 4) :: base64Digit (a % 4 * 16 + b / 16) :: base64Digit (b % 16 * 4 + c / 64) ::
      base64Digit (c % 64) :: base64 r
  | [a, b] => [base64Digit (a / 4), base64Digit (a % 4 * 16 + b / 16), base64Digit (b % 16 * 4), '=']
  | [a] => [base64Digit (a / 4), base64Digit (a % 4 * 16), '=', '=']
  | [] => []

end ResourceIndex.Text
