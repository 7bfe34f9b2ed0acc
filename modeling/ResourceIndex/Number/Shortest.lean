import ResourceIndex.Number.BinaryFormat
/-
The shortest decimal that reads back. The reals that round to a magnitude form an interval around
its value; the digits are those of the first decimal grid that has a point in the interval, and of
two such points the nearer one.
-/
namespace ResourceIndex.BinaryFormat

/-- The interval of reals that round to a magnitude, its bounds and its value over one divisor. -/
structure Neighbourhood where
  low : Nat
  value : Nat
  high : Nat
  den : Nat
  closed : Bool
deriving Repr

/-- The interval of a magnitude that is neither zero nor infinite. -/
def neighbourhood (f : BinaryFormat) (bits : Nat) : Neighbourhood :=
  let (m, q) := f.decode bits
  let below := if m = f.hidden ∧ f.minExp < q then 1 else 2
  let (up, den) := if q < 2 then (1, 1 <<< (2 - q).toNat) else (1 <<< (q - 2).toNat, 1)
  ⟨(4 * m - below) * up, 4 * m * up, (4 * m + 2) * up, den, m % 2 == 0⟩

def digitCount (n : Nat) : Nat := if n = 0 then 0 else (Nat.toDigits 10 n).length

/-- The exponent `t` with `10 ^ (t - 1) ≤ num / den < 10 ^ t`. -/
def decimalExponent (num den : Nat) : Int :=
  if den ≤ num then digitCount (num / den)
  else
    let k := digitCount (den / num)
    if den ≤ num * Nat.pow 10 (k - 1) then 2 - (k : Int) else 1 - (k : Int)

namespace Neighbourhood

/-- `c * 10 ^ t` over the divisor of the interval, both it and the interval scaled by the second part. -/
def point (n : Neighbourhood) (c : Nat) (t : Int) : Nat × Nat :=
  if t < 0 then (c * n.den, Nat.pow 10 (-t).toNat) else (c * n.den * Nat.pow 10 t.toNat, 1)

def holds (n : Neighbourhood) (c : Nat) (t : Int) : Bool :=
  let (x, s) := n.point c t
  if n.closed then n.low * s ≤ x && x ≤ n.high * s else n.low * s < x && x < n.high * s

def distance (n : Neighbourhood) (c : Nat) (t : Int) : Nat :=
  let (x, s) := n.point c t
  (x - n.value * s) + (n.value * s - x)

/-- The point of the grid of multiples of `10 ^ t` that rounds to the magnitude, if any. -/
def onGrid? (n : Neighbourhood) (t : Int) : Option (Nat × Int) :=
  let c := if t < 0 then n.value * Nat.pow 10 (-t).toNat / n.den
    else n.value / (n.den * Nat.pow 10 t.toNat)
  match n.holds c t, n.holds (c + 1) t with
  | true, true => some (if n.distance (c + 1) t < n.distance c t then c + 1 else c, t)
  | true, false => some (c, t)
  | false, true => some (c + 1, t)
  | false, false => none

end Neighbourhood

/-- Trailing zeros of the digits moved into the exponent. -/
def dropZeros : Nat → Nat → Int → Nat × Int
  | 0, m, t => (m, t)
  | fuel + 1, m, t => if m ≠ 0 ∧ m % 10 = 0 then dropZeros fuel (m / 10) (t + 1) else (m, t)

/-- The shortest digits and their power of ten for a magnitude that is neither zero nor infinite. -/
def shortest (f : BinaryFormat) (bits : Nat) : Nat × Int :=
  let n := f.neighbourhood bits
  let t := decimalExponent n.value n.den
  match (List.range 17).findSome? fun k : Nat => n.onGrid? (t - k - 1) with
  | some (m, t) => dropZeros 20 m t
  | none => (0, 0)

end ResourceIndex.BinaryFormat
