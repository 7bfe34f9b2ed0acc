import ResourceIndex.Number.Shortest
/-
Numbers in the double and the single format, held as their bits, so that equality is equality of
bits. Texts have the fewest digits that read back and always a mark of a fraction or an exponent.
-/
namespace ResourceIndex

structure Binary64 where
  bits : UInt64
deriving DecidableEq, Repr, Inhabited

structure Binary32 where
  bits : UInt32
deriving DecidableEq, Repr, Inhabited

namespace Binary64

def signBit : Nat := 0x8000000000000000

def make (negative : Bool) (magnitude : Nat) : Binary64 :=
  ⟨UInt64.ofNat (magnitude + if negative then signBit else 0)⟩

def isNegative (x : Binary64) : Bool := signBit ≤ x.bits.toNat

def magnitude (x : Binary64) : Nat := x.bits.toNat % signBit

def isFinite (x : Binary64) : Bool := x.magnitude < BinaryFormat.double.infinity

def ofDecimal (negative : Bool) (m : Nat) (t : Int) : Binary64 :=
  make negative (BinaryFormat.double.ofDecimal m t)

def ofInt (n : Int) : Binary64 := ofDecimal (n < 0) n.natAbs 0

/-- The digits of a number from `0.00001` up to `10 ^ 16` stand without an exponent. -/
def layout (digits : List Char) (t : Int) : List Char :=
  let e := (digits.length : Int) + t - 1
  if e < -5 ∨ 16 ≤ e then
    let fraction := digits.drop 1
    digits.take 1 ++ (if fraction.isEmpty then [] else '.' :: fraction) ++ ['e'] ++
      (if e < 0 then ['-'] else ['+']) ++ Nat.toDigits 10 e.natAbs
  else if e < 0 then
    ['0', '.'] ++ List.replicate (-e - 1).toNat '0' ++ digits
  else if 0 ≤ t then
    digits ++ List.replicate t.toNat '0' ++ ['.', '0']
  else
    digits.take (e + 1).toNat ++ ['.'] ++ digits.drop (e + 1).toNat

def text (x : Binary64) : List Char :=
  let sign := if x.isNegative then ['-'] else []
  if x.magnitude = 0 then sign ++ ['0', '.', '0']
  else
    let (m, t) := BinaryFormat.double.shortest x.magnitude
    sign ++ layout (Nat.toDigits 10 m) t

end Binary64

namespace Binary32

def signBit : Nat := 0x80000000

def make (negative : Bool) (magnitude : Nat) : Binary32 :=
  ⟨UInt32.ofNat (magnitude + if negative then signBit else 0)⟩

def isNegative (x : Binary32) : Bool := signBit ≤ x.bits.toNat

def magnitude (x : Binary32) : Nat := x.bits.toNat % signBit

def ofBinary64 (x : Binary64) : Binary32 :=
  make x.isNegative (BinaryFormat.convert .double .single x.magnitude)

def toBinary64 (x : Binary32) : Binary64 :=
  Binary64.make x.isNegative (BinaryFormat.convert .single .double x.magnitude)

/-- The place in the total order, in which the negative zero comes before the positive one. -/
def rank (x : Binary32) : Int :=
  if x.isNegative then -1 - (x.magnitude : Int) else x.magnitude

end Binary32

end ResourceIndex
