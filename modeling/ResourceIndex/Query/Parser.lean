import ResourceIndex.Query.Token
/-
Clauses out of tokens. `NOT` negates the token after it, `AND` says nothing, and a word with a
colon after its first letters names the field it is sought in.
-/
namespace ResourceIndex.Query

def splitField? (word : List Char) : Option (List Char × List Char) :=
  match Text.cutAt? ':' word with
  | some (name, value) => if !name.isEmpty && name.all Char.isAlpha then some (name, value) else none
  | none => none

def lookupField (name : List Char) : Except Fault Field :=
  match Field.ofName? name with
  | some f => .ok f
  | none => .error (.unknownField (String.ofList name))

def isPattern (text : List Char) : Bool := text.any fun c => c == '*' || c == '?'

def valueOf (field : Option Field) (text : List Char) (quoted : Bool) : Except Fault Value :=
  match field with
  | some .kind =>
    match ResourceKind.ofQueryValue? (Text.trim text) with
    | some k => .ok (.kind k)
    | none => .error (.unknownKind (String.ofList text))
  | field =>
    let s := String.ofList text
    if quoted then .ok (.phrase s)
    else match field with
      | some .title | some .content => .ok (.term s)
      | _ => .ok (if isPattern text then .wildcard s else .term s)

def quotedField (word : List Char) : Except Fault (Option Field) :=
  match word.getLast? with
  | none => .ok none
  | some c =>
    if c = ':' then (lookupField word.dropLast).map some
    else .error (.unexpectedQuote (String.ofList word))

def Token.clause (t : Token) (occur : Occur) : Except Fault Clause := do
  match t.phrase with
  | some phrase =>
    let field ← quotedField t.word
    if Text.trim phrase = [] then throw .emptyPhrase
    return ⟨occur, field, ← valueOf field phrase true⟩
  | none =>
    match splitField? t.word with
    | some (name, value) =>
      let field ← lookupField name
      if value = [] then throw (.missingValue (String.ofList name))
      return ⟨occur, some field, ← valueOf (some field) value false⟩
    | none => return ⟨occur, none, ← valueOf none t.word false⟩

def Token.isOperator (t : Token) (word : String) : Bool :=
  t.phrase.isNone && !t.negated && t.word == word.toList

/-- The clauses of a list of tokens; `pending` says whether a `NOT` waits for its term. -/
def clausesOf (pending : Bool) : List Token → Except Fault (List Clause)
  | [] => if pending then .error .danglingNot else .ok []
  | t :: ts =>
    if t.isOperator "NOT" then clausesOf (!pending) ts
    else if t.isOperator "AND" then clausesOf pending ts
    else if t.isOperator "OR" then .error .orNotSupported
    else do
      let clause ← t.clause (if t.negated != pending then .mustNot else .must)
      return clause :: (← clausesOf false ts)

def parse (text : String) : Except Fault Query := do
  return ⟨← clausesOf false (← Token.scan text.toList)⟩

end ResourceIndex.Query
