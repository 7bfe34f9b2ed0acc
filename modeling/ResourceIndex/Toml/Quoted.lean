import ResourceIndex.Json.Reader
/-
Strings of TOML documents: between double quotes with escapes, or between single quotes as they
stand; tripled quotes let a string go over several lines.
-/
namespace ResourceIndex.Toml

def isSpace (c : Char) : Bool := c = ' ' || c = '\t'

def skipSpace (s : List Char) : List Char := s.dropWhile isSpace

/-- Characters that may stand in comments and in strings. -/
def isPlain (c : Char) : Bool := c = '\t' || (32 ≤ c.toNat && c.toNat ≠ 127)

def newline? : List Char → Option (List Char)
  | '\n' :: r => some r
  | '\r' :: '\n' :: r => some r
  | _ => none

def codePoint? (digits : List Char) : Option Char := do
  let values ← digits.mapM Text.hexValue?
  let n := values.foldl (fun n v => n * 16 + v) 0
  if n < 0x110000 ∧ ¬(0xD800 ≤ n ∧ n < 0xE000) then some (Char.ofNat n) else none

def shortEscape? (c : Char) : Option Char := if c = '/' then none else Json.shortEscape? c

abbrev Cut := Option (List Char × List Char)

namespace Cut

def prepend (c : Char) (p : Cut) : Cut := p.map fun (s, r) => (c :: s, r)

end Cut

/-- The rest of a string between double quotes. -/
def basic? : List Char → Cut
  | [] => none
  | '"' :: r => some ([], r)
  | '\\' :: 'u' :: a :: b :: c :: d :: r =>
    (codePoint? [a, b, c, d]).bind fun x => Cut.prepend x (basic? r)
  | '\\' :: 'U' :: a :: b :: c :: d :: e :: f :: g :: h :: r =>
    (codePoint? [a, b, c, d, e, f, g, h]).bind fun x => Cut.prepend x (basic? r)
  | '\\' :: c :: r => (shortEscape? c).bind fun x => Cut.prepend x (basic? r)
  | c :: r => if isPlain c && c != '\\' then Cut.prepend c (basic? r) else none

def literal? : List Char → Cut
  | [] => none
  | c :: r =>
    if c = '\'' then some ([], r) else if isPlain c then Cut.prepend c (literal? r) else none

/-- The rest of a string of several lines between double quotes. A backslash at the end of a line
leaves out all blanks and line ends after it, which is what `folding` says is being done. -/
def multilineBasic? (folding : Bool) : List Char → Cut
  | [] => none
  | '"' :: '"' :: '"' :: '"' :: '"' :: r => some (['"', '"'], r)
  | '"' :: '"' :: '"' :: '"' :: r => some (['"'], r)
  | '"' :: '"' :: '"' :: r => some ([], r)
  | '\r' :: '\n' :: r =>
    if folding then multilineBasic? true r else Cut.prepend '\n' (multilineBasic? false r)
  | '\\' :: 'u' :: a :: b :: c :: d :: r =>
    (codePoint? [a, b, c, d]).bind fun x => Cut.prepend x (multilineBasic? false r)
  | '\\' :: 'U' :: a :: b :: c :: d :: e :: f :: g :: h :: r =>
    (codePoint? [a, b, c, d, e, f, g, h]).bind fun x => Cut.prepend x (multilineBasic? false r)
  | '\\' :: c :: r =>
    match shortEscape? c with
    | some x => Cut.prepend x (multilineBasic? false r)
    | none =>
      if (newline? (skipSpace (c :: r))).isSome then multilineBasic? true (c :: r) else none
  | c :: r =>
    if folding && (isSpace c || c = '\n') then multilineBasic? true r
    else if c = '\n' || (isPlain c && c != '\\') then Cut.prepend c (multilineBasic? false r)
    else none

def multilineLiteral? : List Char → Cut
  | [] => none
  | '\'' :: '\'' :: '\'' :: '\'' :: '\'' :: r => some (['\'', '\''], r)
  | '\'' :: '\'' :: '\'' :: '\'' :: r => some (['\''], r)
  | '\'' :: '\'' :: '\'' :: r => some ([], r)
  | '\r' :: '\n' :: r => Cut.prepend '\n' (multilineLiteral? r)
  | c :: r => if c = '\n' || isPlain c then Cut.prepend c (multilineLiteral? r) else none

/-- The text after a line end that follows it at once. -/
def dropNewline (s : List Char) : List Char := (newline? s).getD s

def string? : List Char → Cut
  | '"' :: '"' :: '"' :: r => multilineBasic? false (dropNewline r)
  | '"' :: r => basic? r
  | '\'' :: '\'' :: '\'' :: r => multilineLiteral? (dropNewline r)
  | '\'' :: r => literal? r
  | _ => none

def longestRun (c : Char) (s : List Char) : Nat :=
  (s.foldl (fun (best, run) x => if x = c then (max best (run + 1), run + 1) else (best, 0))
    (0, 0)).1

def needsEscape (c : Char) : Bool := c != '\n' && !isPlain c

/-- A character between double quotes; a line feed and a quote stay in a string of several lines,
but of three quotes in a row the third is escaped. -/
def escapedFrom (lines : Bool) (quotes : Nat) : List Char → List Char
  | [] => []
  | c :: s =>
    if c = '"' then
      if lines ∧ quotes < 2 then c :: escapedFrom lines (quotes + 1) s
      else '\\' :: c :: escapedFrom lines 0 s
    else
      let here :=
        if c = '\\' then ['\\', '\\']
        else if c = '\n' then if lines then ['\n'] else ['\\', 'n']
        else if c = '\t' then ['\\', 't']
        else if c = '\r' then ['\\', 'r']
        else if c = '\x08' then ['\\', 'b']
        else if c = '\x0c' then ['\\', 'f']
        else if needsEscape c then
          ['\\', 'u', '0', '0', (Nat.digitChar (c.toNat / 16)).toUpper,
            (Nat.digitChar (c.toNat % 16)).toUpper]
        else [c]
      here ++ escapedFrom lines 0 s

/-- The written form of a text: the first of the forms without escapes that can hold it, a string
of several lines only for a text that has no form in one; with escapes when there is none. -/
def quoted (s : List Char) : List Char :=
  let lines := s.contains '\n'
  let escapes := s.any needsEscape
  let backslash := s.contains '\\'
  let doubles := longestRun '"' s
  let singles := longestRun '\'' s
  let start := if lines then ['\n'] else []
  let basic := '"' :: escapedFrom false 0 s ++ ['"']
  let linesBasic := ['"', '"', '"'] ++ start ++ escapedFrom true 0 s ++ ['"', '"', '"']
  if !escapes && !backslash && doubles = 0 && !lines then basic
  else if !escapes && singles = 0 && !lines then '\'' :: s ++ ['\'']
  else if !escapes && !backslash && doubles ≤ 2 then linesBasic
  else if !escapes && singles ≤ 2 then
    ['\'', '\'', '\''] ++ start ++ s ++ ['\'', '\'', '\'']
  else if lines then linesBasic
  else basic

end ResourceIndex.Toml
