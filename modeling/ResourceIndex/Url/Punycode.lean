/-
The encoding of international labels in ASCII letters and digits. Characters beyond ASCII are given
in ascending order as distances, written with digits whose thresholds follow the size of the last
distances.
-/
namespace ResourceIndex.Punycode

def digit? (c : Char) : Option Nat :=
  if c.isDigit then some (c.toNat - 22)
  else if c.isLower then some (c.toNat - 97)
  else if c.isUpper then some (c.toNat - 65)
  else none

def threshold (k bias : Nat) : Nat := if k ≤ bias then 1 else min 26 (k - bias)

/-- Divides a distance down to the range of one digit; the number bounds the steps. -/
def settle : Nat → Nat → Nat → Nat × Nat
  | 0, delta, k => (delta, k)
  | fuel + 1, delta, k => if 455 < delta then settle fuel (delta / 35) (k + 36) else (delta, k)

def adapt (delta points : Nat) (first : Bool) : Nat :=
  let delta := if first then delta / 700 else delta / 2
  let delta := delta + delta / points
  let (delta, k) := settle delta delta 0
  k + 36 * delta / (delta + 38)

/-- A distance added to `i`, and what follows its digits. -/
def distance? (bias k weight i : Nat) : List Char → Option (Nat × List Char)
  | [] => none
  | c :: s => do
    let d ← digit? c
    let i := i + d * weight
    if UInt32.size ≤ i then none
    let t := threshold k bias
    if d < t then some (i, s) else distance? bias (k + 36) (weight * (36 - t)) i s

/-- Puts the characters that the distances give into the text; the number bounds how many. -/
def insertAll? : Nat → Nat → Nat → Nat → List Char → List Char → Option (List Char)
  | _, _, _, _, out, [] => some out
  | 0, _, _, _, _, _ => none
  | fuel + 1, n, i, bias, out, s => do
    let (next, rest) ← distance? bias 36 1 i s
    let points := out.length + 1
    let n := n + next / points
    let place := next % points
    if 0x110000 ≤ n || (0xD800 ≤ n && n ≤ 0xDFFF) then none
    let out := out.take place ++ Char.ofNat n :: out.drop place
    insertAll? fuel n (place + 1) (adapt (next - i) points (i == 0)) out rest

def decode? (code : List Char) : Option (List Char) :=
  let tail := (code.reverse.takeWhile (· != '-')).reverse
  let basic := (code.take (code.length - tail.length)).dropLast
  insertAll? tail.length 128 0 72 basic tail

end ResourceIndex.Punycode
