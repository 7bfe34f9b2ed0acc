/- Sets of characters given as ascending lists of code point intervals. -/
namespace ResourceIndex.Text

/-- Whether the code point lies in one of the closed intervals. -/
def inRanges (ranges : List (Nat × Nat)) (n : Nat) : Bool :=
  ranges.any fun r => r.1 ≤ n && n ≤ r.2

end ResourceIndex.Text
