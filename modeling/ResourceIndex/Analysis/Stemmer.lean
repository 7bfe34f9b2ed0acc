/-
Stems of English words by the second Porter algorithm. Words are in lower case; a `y` that stands
for a consonant is written `Y` while the endings are taken off.
-/
namespace ResourceIndex.Analysis.Stemmer

def isVowel (c : Char) : Bool := ['a', 'e', 'i', 'o', 'u', 'y'].contains c

/-- Writes a `y` at the start of the word and after a vowel as a consonant. -/
def markY (afterVowel : Bool) : List Char → List Char
  | [] => []
  | c :: w =>
    let c := if c = 'y' ∧ afterVowel then 'Y' else c
    c :: markY (isVowel c) w

/-- What follows the first consonant after the first vowel. -/
def afterSyllable? (w : List Char) : Option (List Char) :=
  match (w.dropWhile fun c => !isVowel c).dropWhile isVowel with
  | _ :: rest => some rest
  | [] => none

/-- Words whose first region begins after a fixed start. -/
def regionStarts : List (List Char) := ["gener".toList, "commun".toList, "arsen".toList]

def regions (w : List Char) : Nat × Nat :=
  let first := match regionStarts.find? fun p => p.isPrefixOf w with
    | some p => some (w.drop p.length)
    | none => afterSyllable? w
  match first with
  | none => (w.length, w.length)
  | some r =>
    match afterSyllable? r with
    | none => (w.length - r.length, w.length)
    | some r' => (w.length - r.length, w.length - r'.length)

structure Word where
  letters : List Char
  first : Nat
  second : Nat
deriving Repr

namespace Word

def hasEnding (w : Word) (ending : List Char) : Bool := ending.isSuffixOf w.letters

def before (w : Word) (ending : List Char) : List Char :=
  w.letters.take (w.letters.length - ending.length)

def replace (w : Word) (ending new : List Char) : Word :=
  { w with letters := w.before ending ++ new }

def inFirst (w : Word) (ending : List Char) : Bool := w.first ≤ (w.before ending).length

def inSecond (w : Word) (ending : List Char) : Bool := w.second ≤ (w.before ending).length

end Word

def endsShort (letters : List Char) : Bool :=
  match letters.reverse with
  | [c, v] => !isVowel c && isVowel v
  | c :: v :: b :: _ =>
    !isVowel c && !(['w', 'x', 'Y'].contains c) && isVowel v && !isVowel b
  | _ => false

def longest? {α : Type} (table : List (String × α)) (w : Word) : Option (List Char × α) :=
  (table.filter fun e => w.hasEnding e.1.toList).foldl
    (fun best e => match best with
      | some (b, _) => if b.length < e.1.length then some (e.1.toList, e.2) else best
      | none => some (e.1.toList, e.2)) none

def stepPlural (w : Word) : Word :=
  match longest? [("sses", 0), ("ied", 1), ("ies", 1), ("us", 2), ("ss", 2), ("s", 3)] w with
  | some (e, 0) => w.replace e ['s', 's']
  | some (e, 1) => w.replace e (if 1 < (w.before e).length then ['i'] else ['i', 'e'])
  | some (e, 3) => if (w.before e).dropLast.any isVowel then w.replace e [] else w
  | _ => w

def doubles : List (List Char) :=
  ["bb", "dd", "ff", "gg", "mm", "nn", "pp", "rr", "tt"].map String.toList

/-- What is mended after the ending of a past form is gone. -/
def mend (w : Word) : Word :=
  if ["at", "bl", "iz"].any fun e => w.hasEnding e.toList then
    { w with letters := w.letters ++ ['e'] }
  else if doubles.any fun e => w.hasEnding e then { w with letters := w.letters.dropLast }
  else if w.letters.length = w.first && endsShort w.letters then
    { w with letters := w.letters ++ ['e'] }
  else w

def stepPast (w : Word) : Word :=
  match longest? [("eed", true), ("eedly", true), ("ed", false), ("edly", false), ("ing", false),
      ("ingly", false)] w with
  | some (e, true) => if w.inFirst e then w.replace e ['e', 'e'] else w
  | some (e, false) => if (w.before e).any isVowel then mend (w.replace e []) else w
  | none => w

/-- A final `y` after a consonant that is not the first letter. -/
def stepY (w : Word) : Word :=
  match w.letters.reverse with
  | y :: c :: _ :: _ =>
    if (y = 'y' || y = 'Y') && !isVowel c then { w with letters := w.letters.dropLast ++ ['i'] }
    else w
  | _ => w

/-- Endings, the letters of which one has to come before (none given: any), and what they become. -/
def derivations : List (String × List Char × String) := [
  ("tional", [], "tion"), ("enci", [], "ence"), ("anci", [], "ance"), ("abli", [], "able"),
  ("entli", [], "ent"), ("izer", [], "ize"), ("ization", [], "ize"), ("ational", [], "ate"),
  ("ation", [], "ate"), ("ator", [], "ate"), ("alism", [], "al"), ("aliti", [], "al"),
  ("alli", [], "al"), ("fulness", [], "ful"), ("ousli", [], "ous"), ("ousness", [], "ous"),
  ("iveness", [], "ive"), ("iviti", [], "ive"), ("biliti", [], "ble"), ("bli", [], "ble"),
  ("ogi", ['l'], "og"), ("fulli", [], "ful"), ("lessli", [], "less"),
  ("li", ['c', 'd', 'e', 'g', 'h', 'k', 'm', 'n', 'r', 't'], "")]

def comesAfter (w : Word) (ending allowed : List Char) : Bool :=
  allowed.isEmpty ||
    match (w.before ending).getLast? with
    | some c => allowed.contains c
    | none => false

def stepDerived (w : Word) : Word :=
  match longest? derivations w with
  | some (e, allowed, new) =>
    if w.inFirst e && comesAfter w e allowed then w.replace e new.toList else w
  | none => w

/-- Endings of the first region, whether they have to lie in the second, and what they become. -/
def adjectives : List (String × Bool × String) := [
  ("tional", false, "tion"), ("ational", false, "ate"), ("alize", false, "al"),
  ("icate", false, "ic"), ("iciti", false, "ic"), ("ical", false, "ic"), ("ful", false, ""),
  ("ness", false, ""), ("ative", true, "")]

def stepAdjective (w : Word) : Word :=
  match longest? adjectives w with
  | some (e, deep, new) =>
    if w.inFirst e && (!deep || w.inSecond e) then w.replace e new.toList else w
  | none => w

/-- Endings that go when they lie in the second region, and the letters one of which comes before. -/
def endings : List (String × List Char) :=
  (["al", "ance", "ence", "er", "ic", "able", "ible", "ant", "ement", "ment", "ent", "ism", "ate",
    "iti", "ous", "ive", "ize"].map fun e => (e, [])) ++ [("ion", ['s', 't'])]

def stepEnding (w : Word) : Word :=
  match longest? endings w with
  | some (e, allowed) =>
    if w.inSecond e && comesAfter w e allowed then w.replace e [] else w
  | none => w

/-- A final `e` or the second of two final `l`. -/
def stepFinal (w : Word) : Word :=
  match w.letters.getLast? with
  | some 'e' =>
    if w.inSecond ['e'] || (w.inFirst ['e'] && !endsShort (w.before ['e'])) then
      w.replace ['e'] []
    else w
  | some 'l' =>
    if w.inSecond ['l'] && comesAfter w ['l'] ['l'] then w.replace ['l'] [] else w
  | _ => w

def exceptions : List (String × String) := [
  ("skis", "ski"), ("skies", "sky"), ("dying", "die"), ("lying", "lie"), ("tying", "tie"),
  ("idly", "idl"), ("gently", "gentl"), ("ugly", "ugli"), ("early", "earli"), ("only", "onli"),
  ("singly", "singl"), ("sky", "sky"), ("news", "news"), ("howe", "howe"), ("atlas", "atlas"),
  ("cosmos", "cosmos"), ("bias", "bias"), ("andes", "andes")]

/-- Words that stay as they are once a plural is gone. -/
def finished : List String :=
  ["inning", "outing", "canning", "herring", "earring", "proceed", "exceed", "succeed"]

def stem (word : List Char) : List Char :=
  match exceptions.lookup (String.ofList word) with
  | some s => s.toList
  | none =>
    if word.length < 3 then word
    else
      let marked := markY true word
      let (first, second) := regions marked
      let w := stepPlural ⟨marked, first, second⟩
      let w :=
        if finished.contains (String.ofList w.letters) then w
        else stepFinal (stepEnding (stepAdjective (stepDerived (stepY (stepPast w)))))
      w.letters.map fun c => if c = 'Y' then 'y' else c

end ResourceIndex.Analysis.Stemmer
