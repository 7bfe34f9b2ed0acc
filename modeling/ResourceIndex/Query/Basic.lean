import ResourceIndex.Resource.Basic
/-
Queries. A query is a conjunction of clauses; each asks for a word, a phrase, a pattern or a kind
of resource, in one field or, without a field, in several.
-/
namespace ResourceIndex.Query

inductive Occur where
  | must | mustNot
deriving DecidableEq, Repr, Inhabited

inductive Field where
  | name | title | content | tags | mimeType | kind
deriving DecidableEq, Repr, Inhabited

namespace Field

/-- The field of a name in the query language; the case of letters does not matter. -/
def ofName? (name : List Char) : Option Field :=
  let word := String.ofList (Text.lowerAscii name)
  if word = "name" then some .name
  else if word = "title" then some .title
  else if word = "content" then some .content
  else if word = "tag" ∨ word = "tags" then some .tags
  else if word = "mime" ∨ word = "mimetype" ∨ word = "mediatype" then some .mimeType
  else if word = "type" then some .kind
  else none

/-- Keyword fields are compared as whole values. -/
def isKeyword : Field → Bool
  | .name | .tags | .mimeType => true
  | .title | .content | .kind => false

end Field

inductive Value where
  | term : String → Value
  | phrase : String → Value
  | wildcard : String → Value
  | kind : ResourceKind → Value
deriving DecidableEq, Repr, Inhabited

structure Clause where
  occur : Occur
  field : Option Field
  value : Value
deriving DecidableEq, Repr, Inhabited

end Query

/-- A query: all of its clauses have to be met. -/
structure Query where
  clauses : List Query.Clause
deriving DecidableEq, Repr, Inhabited

namespace Query

/-- A query without clauses is met by everything. -/
def isMatchAll (q : Query) : Bool := q.clauses.isEmpty

def isPurelyNegative (q : Query) : Bool :=
  !q.clauses.isEmpty && q.clauses.all fun c => c.occur == .mustNot

inductive Fault where
  | unterminatedQuote : Fault
  | orNotSupported : Fault
  | danglingNot : Fault
  | unexpectedQuote : String → Fault
  | emptyPhrase : Fault
  | missingValue : String → Fault
  | unknownField : String → Fault
  | unknownKind : String → Fault
deriving DecidableEq, Repr, Inhabited

namespace Fault

def reason : Fault → String
  | unterminatedQuote => "unterminated quote"
  | orNotSupported => "OR is not supported, terms are always combined"
  | danglingNot => "NOT must be followed by a term"
  | unexpectedQuote word => "unexpected quote after '" ++ word ++ "'"
  | emptyPhrase => "empty phrase"
  | missingValue name => "missing value for field '" ++ name ++ "'"
  | unknownField name => "unknown field '" ++ name ++ "'"
  | unknownKind text => "unknown type '" ++ text ++ "'"

def message (e : Fault) : String := "invalid query: " ++ e.reason

end Fault

end Query

end ResourceIndex
