import ResourceIndex.Toml.Quoted
import ResourceIndex.Toml.Scalar
import ResourceIndex.Toml.Table
/-
Reading TOML documents. The lines of a document are statements, which are replayed one after
another over its table. Arrays and inline tables nest less than eighty deep, and a key has fewer
than eighty parts.
-/
namespace ResourceIndex.Toml

def skipFiller (inComment : Bool) : List Char → List Char
  | [] => []
  | '\r' :: '\n' :: r => skipFiller false r
  | c :: r =>
    if c = '\n' then skipFiller false r
    else if inComment then if isPlain c then skipFiller true r else c :: r
    else if isSpace c then skipFiller false r
    else if c = '#' then skipFiller true r
    else c :: r

/-- What follows the rest of a line, which holds no more than a comment. -/
def lineEnd? (s : List Char) : Option (List Char) :=
  let r := match skipSpace s with
    | '#' :: r => r.dropWhile isPlain
    | r => r
  if r.isEmpty then some [] else newline? r

def isBareKeyChar (c : Char) : Bool := c.isAlphanum || c = '_' || c = '-'

def simpleKey? (s : List Char) : Option (String × List Char) :=
  match s with
  | '"' :: r => (basic? r).map fun p => (String.ofList p.1, p.2)
  | '\'' :: r => (literal? r).map fun p => (String.ofList p.1, p.2)
  | _ =>
    let key := s.takeWhile isBareKeyChar
    if key.isEmpty then none else some (String.ofList key, s.drop key.length)

/-- A key: the parts before the last dot, and the last part. -/
structure Key where
  path : List String
  name : String
deriving DecidableEq, Repr

/-- A key of at most so many parts, and what follows it and the blanks around it. -/
def key? : Nat → List Char → Option (Key × List Char)
  | 0, _ => none
  | most + 1, s => do
    let (name, r) ← simpleKey? (skipSpace s)
    match skipSpace r with
    | '.' :: r =>
      let (k, r) ← key? most r
      return (⟨name :: k.path, k.name⟩, r)
    | r => return (⟨[], name⟩, r)

def mostParts : Nat := 79

abbrev ReadValue := List Char → Option (Json × List Char)

/-- The elements of an array up to its closing bracket; a comma may follow the last one. -/
def elements? (value : ReadValue) : Nat → List Char → Option (List Json × List Char)
  | 0, _ => none
  | fuel + 1, s =>
    match skipFiller false s with
    | ']' :: r => some ([], r)
    | s => do
      let (v, r) ← value s
      match skipFiller false r with
      | ',' :: r =>
        let (vs, r) ← elements? value fuel r
        return (v :: vs, r)
      | ']' :: r => return ([v], r)
      | _ => none

def pair? (value : ReadValue) (s : List Char) : Option ((Key × Json) × List Char) := do
  let (k, r) ← key? mostParts s
  let (v, r) ← value (skipSpace (← after? '=' r))
  return ((k, v), skipSpace r)

/-- The pairs of an inline table up to its closing brace, at least one. -/
def pairs? (value : ReadValue) : Nat → List Char → Option (List (Key × Json) × List Char)
  | 0, _ => none
  | fuel + 1, s => do
    let (p, r) ← pair? value s
    match r with
    | ',' :: r =>
      let (ps, r) ← pairs? value fuel r
      return (p :: ps, r)
    | '\x7d' :: r => return ([p], r)
    | _ => none

def tableOf? (pairs : List (Key × Json)) : Option Table :=
  pairs.foldlM (fun t (k, v) => Table.define k.path k.name v t) []

/-- A value at the start of a text, with at most so many levels of arrays and inline tables. -/
def value? : Nat → ReadValue
  | levels, '[' :: r =>
    match levels with
    | 0 => none
    | levels + 1 => (elements? (value? levels) (r.length + 1) r).map fun p => (.arr p.1, p.2)
  | levels, '\x7b' :: r =>
    match levels with
    | 0 => none
    | levels + 1 =>
      match skipSpace r with
      | '\x7d' :: r => some (.obj [], r)
      | r => do
        let (ps, r) ← pairs? (value? levels) (r.length + 1) r
        return ((← tableOf? ps).toJson, r)
  | _, '"' :: r => (string? ('"' :: r)).map fun p => (.str (String.ofList p.1), p.2)
  | _, '\'' :: r => (string? ('\'' :: r)).map fun p => (.str (String.ofList p.1), p.2)
  | _, s => do
    let (text, r) := cutWord s
    return (← word? text, r)

def mostLevels : Nat := 79

inductive Statement where
  | pair : Key → Json → Statement
  | table : Key → Statement
  | element : Key → Statement
deriving Repr

def statement? : List Char → Option (Statement × List Char)
  | '[' :: '[' :: r => do
    let (k, r) ← key? mostParts r
    let r ← lineEnd? (← after? ']' (← after? ']' r))
    return (.element k, r)
  | '[' :: r => do
    let (k, r) ← key? mostParts r
    let r ← lineEnd? (← after? ']' r)
    return (.table k, r)
  | s => do
    let ((k, v), r) ← pair? (value? mostLevels) s
    return (.pair k v, ← lineEnd? r)

/-- The statements of a document; the number bounds how many there are. -/
def statements? : Nat → List Char → Option (List Statement)
  | fuel, s =>
    match skipFiller false s with
    | [] => some []
    | s =>
      match fuel with
      | 0 => none
      | fuel + 1 => do
        let (x, r) ← statement? s
        return x :: (← statements? fuel r)

/-- A document as far as it is read: its table, and where the pairs that follow belong. -/
structure Document where
  table : Table
  place : List String

namespace Document

def empty : Document := ⟨[], []⟩

def replay (d : Document) : Statement → Option Document
  | .pair k v => do
    let change (_ : Standing) (t : Table) : Option Table := Table.define k.path k.name v t
    return { d with table := ← Table.descend false change d.place .opened d.table }
  | .table k => do return ⟨← Table.openTable k.path k.name d.table, k.path ++ [k.name]⟩
  | .element k => do return ⟨← Table.openElement k.path k.name d.table, k.path ++ [k.name]⟩

end Document

def dropMark : List Char → List Char
  | c :: r => if c = '\uFEFF' then r else c :: r
  | [] => []

def read? (text : String) : Option Json.Members := do
  let s := dropMark text.toList
  let d ← (← statements? s.length s).foldlM Document.replay .empty
  match d.table.toJson with
  | .obj members => some members
  | _ => none

end ResourceIndex.Toml
