import ResourceIndex.Json.Basic
import ResourceIndex.Query.Basic
import ResourceIndex.Text.Lowercase
/-
Queries in the language of the cluster, and how a parsed query is said in it. Keyword
fields are asked for in lower case; a free word is sought inside names as a literal text.
-/
namespace ResourceIndex.Cluster

inductive IndexField where
  | name | title | content | tags | mimeType | kind | rootId | pathTree | deleted
deriving DecidableEq, Repr, Inhabited

namespace IndexField

def key : IndexField → String
  | name => "name"
  | title => "title"
  | content => "content"
  | tags => "tags"
  | mimeType => "mime_type"
  | kind => "resource_type"
  | rootId => "root_id"
  | pathTree => "path.tree"
  | deleted => "deleted"

def ofField : Query.Field → IndexField
  | .name => name
  | .title => title
  | .content => content
  | .tags => tags
  | .mimeType => mimeType
  | .kind => kind

end IndexField

inductive Dsl where
  | matchAll : Dsl
  | term (field : IndexField) (value : String) : Dsl
  | flag (field : IndexField) (value : Bool) : Dsl
  | wildcard (field : IndexField) (pattern : String) : Dsl
  /-- The analyzed field holds all words of the text. -/
  | words (field : IndexField) (text : String) : Dsl
  /-- The analyzed field holds the words of the text one after another. -/
  | phrase (field : IndexField) (text : String) : Dsl
  | ids (ids : List String) : Dsl
  | anyOf (should : List Dsl) : Dsl
  | allBut (must mustNot : List Dsl) : Dsl
  /-- The first part decides about scores, the second only about what is found. -/
  | filtered (must filter : List Dsl) : Dsl
deriving Repr

namespace Dsl

open Json

mutual

def toJson : Dsl → Json
  | matchAll => object [("match_all", object [])]
  | term field value => object [("term", object [(field.key, .str value)])]
  | flag field value => object [("term", object [(field.key, .bool value)])]
  | wildcard field pattern => object [("wildcard", object [(field.key, object [
      ("value", .str pattern), ("case_insensitive", .bool true)])])]
  | words field text => object [("match", object [(field.key, object [
      ("query", .str text), ("operator", .str "and")])])]
  | phrase field text => object [("match_phrase", object [(field.key, .str text)])]
  | ids l => object [("ids", object [("values", strings l)])]
  | anyOf should => object [("bool", object [
      ("should", .arr (toJsons should)), ("minimum_should_match", .int 1)])]
  | allBut must mustNot => object [("bool", object [
      ("must", .arr (toJsons must)), ("must_not", .arr (toJsons mustNot))])]
  | filtered must filter => object [("bool", object
      ((match must with
        | [] => []
        | must => [("must", .arr (toJsons must))]) ++ [("filter", .arr (toJsons filter))]))]

def toJsons : List Dsl → List Json
  | [] => []
  | q :: qs => toJson q :: toJsons qs

end

/-- A literal text as a pattern. -/
def escapePattern (s : List Char) : List Char :=
  s.flatMap fun c => if c = '*' ∨ c = '?' ∨ c = '\\' then ['\\', c] else [c]

def lowered (s : String) : String := String.ofList (Text.lower s.toList)

def pattern (field : IndexField) (s : List Char) : Dsl :=
  wildcard field (String.ofList (Text.lower s))

def free : Query.Value → Dsl
  | .term s => anyOf [pattern .name ('*' :: escapePattern s.toList ++ ['*']),
      words .title s, words .content s, term .tags (lowered s)]
  | .phrase s => anyOf [term .name (lowered s), phrase .title s, phrase .content s]
  | .wildcard s => anyOf [pattern .name s.toList, pattern .tags s.toList]
  | .kind k => anyOf [term .kind k.name]

def fielded (field : Query.Field) (value : Query.Value) : Dsl :=
  let f := IndexField.ofField field
  match value with
  | .kind k => term f k.name
  | .wildcard s => pattern f s.toList
  | .term s => if field.isKeyword then term f (lowered s) else words f s
  | .phrase s => if field.isKeyword then term f (lowered s) else phrase f s

def ofClause (c : Query.Clause) : Dsl :=
  match c.field with
  | none => free c.value
  | some f => fielded f c.value

def ofQuery (q : Query) : Dsl :=
  if q.isMatchAll then matchAll
  else
    let must := (q.clauses.filter fun c => c.occur == .must).map ofClause
    let mustNot := (q.clauses.filter fun c => c.occur == .mustNot).map ofClause
    allBut (if must.isEmpty then [matchAll] else must) mustNot

end Dsl

end ResourceIndex.Cluster
