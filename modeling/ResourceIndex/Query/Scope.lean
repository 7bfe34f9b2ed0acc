import ResourceIndex.Text.Blank
/-
The scope of a search inside its query text. A token that begins with `scope:` and goes on names
the scope; such tokens are taken out of the text together with the blank before them.
-/
namespace ResourceIndex.Query

open Text (isBlank)

def scopeMark : List Char := ['s', 'c', 'o', 'p', 'e', ':']

/-- The value of a scope token at the start of the text, and what follows the token. -/
def scopeAt? (s : List Char) : Option (List Char × List Char) :=
  match scopeMark.isPrefixOf? s with
  | some rest =>
    let value := rest.takeWhile fun c => !isBlank c
    if value = [] then none else some (value, rest.dropWhile fun c => !isBlank c)
  | none => none

/-- The values of the scope tokens and the text without them; the number bounds the steps. -/
def withoutScopes : Nat → List Char → List (List Char) × List Char
  | 0, s => ([], s)
  | _ + 1, [] => ([], [])
  | fuel + 1, c :: s =>
    match if isBlank c then scopeAt? s else none with
    | some (value, rest) =>
      let (values, text) := withoutScopes fuel rest
      (value :: values, text)
    | none =>
      let (values, text) := withoutScopes fuel s
      (values, c :: text)

/-- The query text without its scope tokens, trimmed, and the value of the first of them. -/
def extractScope (text : String) : String × Option String :=
  let s := text.toList
  let (values, rest) := match scopeAt? s with
    | some (value, rest) =>
      let (values, rest) := withoutScopes rest.length rest
      (value :: values, rest)
    | none => withoutScopes s.length s
  (String.ofList (Text.trim rest), values.head?.map String.ofList)

end ResourceIndex.Query
