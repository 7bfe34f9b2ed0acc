import ResourceIndex.Text.LetterCase
/-
Lower case of texts. `lowerChars` maps every character by itself; `lower` is the mapping of whole
texts, which writes a capital sigma at the end of a word as the final sigma.
-/
namespace ResourceIndex.Text

def lowerShift? (n : Nat) : Option Int :=
  (lowerRows.find? fun (lo, hi, step, _) => lo ≤ n && n ≤ hi && (n - lo) % step == 0).map
    fun (_, _, _, shift) => shift

/-- Lower case of one character; only a capital I with a dot gives two characters. -/
def lowerChar (c : Char) : List Char :=
  if c.toNat < 128 then [c.toLower]
  else if c = 'İ' then ['i', '\u0307']
  else match lowerShift? c.toNat with
    | some shift => [Char.ofNat (c.toNat + shift).toNat]
    | none => [c]

def lowerChars (s : List Char) : List Char := s.flatMap lowerChar

/-- Letters that take part in case distinctions. -/
def isCased (c : Char) : Bool :=
  if c.toNat < 128 then c.isAlpha else inRanges casedRanges c.toNat

/-- Characters that are passed over when the neighbour letters of a sigma are sought. -/
def isCaseIgnorable (c : Char) : Bool :=
  if c.toNat < 128 then c = '\'' || c = '.' || c = ':' || c = '^' || c.toNat = 96
  else inRanges caseIgnorableRanges c.toNat

/-- Whether the first character that is not passed over is a cased letter. -/
def meetsCased (s : List Char) : Bool :=
  match s.dropWhile isCaseIgnorable with
  | [] => false
  | c :: _ => isCased c

/-- Lower case of the rest of a text whose read part is given in reverse. -/
def lowerAfter (before : List Char) : List Char → List Char
  | [] => []
  | c :: s =>
    let here :=
      if c = 'Σ' then [if meetsCased before && !meetsCased s then 'ς' else 'σ'] else lowerChar c
    here ++ lowerAfter (c :: before) s

/-- Lower case of a whole text, with the final form of sigma at the end of a word. -/
def lower (s : List Char) : List Char := lowerAfter [] s

end ResourceIndex.Text
