/-
Binary floating point formats. A magnitude is a natural number, its bits without the sign; the
value it stands for is a significand times a power of two, and quotients are rounded to the
nearest magnitude, a tie going to the even one.
-/
namespace ResourceIndex

/-- A format by its significand bits, the exponent of its last place and its exponent bits. -/
structure BinaryFormat where
  precision : Nat
  minExp : Int
  exponentBits : Nat
deriving DecidableEq, Repr

namespace BinaryFormat

def double : BinaryFormat := ⟨53, -1074, 11⟩

def single : BinaryFormat := ⟨24, -149, 8⟩

/-- The smallest significand of a normal number. -/
def hidden (f : BinaryFormat) : Nat := 1 <<< (f.precision - 1)

/-- The magnitude of infinity; every finite magnitude is smaller. -/
def infinity (f : BinaryFormat) : Nat := (1 <<< f.exponentBits - 1) * f.hidden

/-- The significand of a magnitude and the exponent of its last place. -/
def decode (f : BinaryFormat) (bits : Nat) : Nat × Int :=
  if bits / f.hidden = 0 then (bits, f.minExp)
  else (bits % f.hidden + f.hidden, f.minExp + (bits / f.hidden : Nat) - 1)

/-- The quotient rounded to the nearest integer, a half to the even one. -/
def roundHalfEven (num den : Nat) : Nat :=
  let k := num / den
  let r := num % den
  if 2 * r < den then k else if den < 2 * r then k + 1 else k + k % 2

/-- `num / den / 2 ^ q` as a quotient of naturals. -/
def scaled (num den : Nat) (q : Int) : Nat × Nat :=
  if q < 0 then (num <<< (-q).toNat, den) else (num, den <<< q.toNat)

/-- The exponent of the last place to which `num / den` is rounded. -/
def lastPlace (f : BinaryFormat) (num den : Nat) : Int :=
  let q := max f.minExp ((Nat.log2 num : Int) - Nat.log2 den - f.precision)
  let (n, d) := scaled num den q
  if 1 <<< f.precision ≤ n / d then q + 1 else q

def ofQuotient (f : BinaryFormat) (num den : Nat) : Nat :=
  if num = 0 then 0
  else
    let q := f.lastPlace num den
    let (n, d) := scaled num den q
    min f.infinity (roundHalfEven n d + (q - f.minExp).toNat * f.hidden)

def ofScaled (f : BinaryFormat) (m : Nat) (q : Int) : Nat :=
  if q < 0 then f.ofQuotient m (1 <<< (-q).toNat) else f.ofQuotient (m <<< q.toNat) 1

/-- The magnitude nearest to `m * 10 ^ t`. The bounds on `t` only spare work. -/
def ofDecimal (f : BinaryFormat) (m : Nat) (t : Int) : Nat :=
  if m = 0 then 0
  else if 400 < t then f.infinity
  else if t < -400 - (Nat.log2 m : Int) then 0
  else if t < 0 then f.ofQuotient m (Nat.pow 10 (-t).toNat)
  else f.ofQuotient (m * Nat.pow 10 t.toNat) 1

def convert (src dst : BinaryFormat) (bits : Nat) : Nat :=
  if src.infinity ≤ bits then dst.infinity
  else dst.ofScaled (src.decode bits).1 (src.decode bits).2

end BinaryFormat

end ResourceIndex
