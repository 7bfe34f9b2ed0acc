/-
Wildcard patterns. A star stands for any text and a question mark for one character; the same
meaning is written as a regular expression in which every other character stands for itself.
-/
namespace ResourceIndex.Query

def globFits : List Char → List Char → Bool
  | [], s => s.isEmpty
  | p :: ps, [] => p == '*' && globFits ps []
  | p :: ps, x :: s =>
    if p = '*' then globFits ps (x :: s) || globFits (p :: ps) s
    else (p == '?' || p == x) && globFits ps s
termination_by ps s => (ps.length, s.length)

/-- The characters that have a meaning in regular expressions. -/
def isRegexSpecial (c : Char) : Bool :=
  ['\\', '.', '+', '*', '?', '(', ')', '|', '[', ']', '\x7b', '\x7d', '^', '$', '#', '&', '-',
    '~'].contains c

def escapeRegex (s : List Char) : List Char :=
  s.flatMap fun c => if isRegexSpecial c then ['\\', c] else [c]

def globRegex (pattern : List Char) : List Char :=
  pattern.flatMap fun c =>
    if c = '*' then ['.', '*'] else if c = '?' then ['.'] else escapeRegex [c]

end ResourceIndex.Query
