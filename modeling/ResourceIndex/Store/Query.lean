import ResourceIndex.Analysis.Token
import ResourceIndex.Error
import ResourceIndex.Query.Automaton
/-
Queries of the store: what they mean for a resource, and how a parsed query is turned into
them. Keyword values are indexed in lower case, character by character; a query value is lowered
as a whole text.
-/
namespace ResourceIndex.Store

/-- Fields whose values are compared as a whole. -/
inductive KeywordField where
  | name | tags | mimeType | kind
deriving DecidableEq, Repr, Inhabited

/-- Fields whose values are cut into tokens. -/
inductive TextField where
  | title | content
deriving DecidableEq, Repr, Inhabited

def KeywordField.valuesOf : KeywordField → Resource → List (List Char)
  | .name, r => [Text.lowerChars r.document.name.toList]
  | .tags, r => r.document.tags.toList.map fun t => Text.lowerChars t.toList
  | .mimeType, r => [Text.lowerChars r.document.mimeType.toList]
  | .kind, r => [r.kind.name.toList]

namespace TextField

def analyze : TextField → List Char → List Analysis.Token
  | .title => Analysis.titleTokens
  | .content => Analysis.contentTokens

def tokensOf : TextField → Resource → List Analysis.Token
  | .title, r => Analysis.titleTokens r.document.title.toList
  | .content, r => Analysis.contentTokens r.document.content.toList

end TextField

inductive Plan where
  | all : Plan
  | none : Plan
  | keyword (field : KeywordField) (value : List Char) : Plan
  | regex (field : KeywordField) (regex : List Char) : Plan
  | word (field : TextField) (token : List Char) : Plan
  | words (field : TextField) (tokens : List (List Char)) : Plan
  /-- The tokens stand one after another, at consecutive positions. -/
  | phrase (field : TextField) (tokens : List (List Char)) : Plan
  | anyOf (should : List Plan) : Plan
  /-- With nothing that must hold it selects nothing. -/
  | allBut (must mustNot : List Plan) : Plan
deriving Repr

namespace Plan

/-- Whether the tokens stand at the positions from `position` on. -/
def standsAt (tokens : List Analysis.Token) (position : Nat) : List (List Char) → Bool
  | [] => true
  | w :: ws => (tokens.any fun t => t.position == position && t.text == w) &&
    standsAt tokens (position + 1) ws

mutual

def selects : Plan → Resource → Bool
  | all, _ => true
  | none, _ => false
  | keyword field value, r => (field.valuesOf r).contains value
  | regex field e, r => (field.valuesOf r).any fun v => Query.Regex.covers e v
  | word field token, r => (field.tokensOf r).any fun t => t.text == token
  | words field ws, r =>
    let tokens := field.tokensOf r
    ws.all fun w => tokens.any fun t => t.text == w
  | phrase field ws, r =>
    let tokens := field.tokensOf r
    tokens.any fun t => standsAt tokens t.position ws
  | anyOf should, r => someSelects should r
  | allBut must mustNot, r => !must.isEmpty && allSelect must r && !someSelects mustNot r

def someSelects : List Plan → Resource → Bool
  | [], _ => false
  | p :: ps, r => selects p r || someSelects ps r

def allSelect : List Plan → Resource → Bool
  | [], _ => true
  | p :: ps, r => selects p r && allSelect ps r

end

mutual

/-- The content tokens that a query asks for, those of its negated parts included. -/
def contentWords : Plan → List (List Char)
  | word .content w => [w]
  | words .content ws => ws
  | phrase .content ws => ws
  | anyOf should => contentWordsOf should
  | allBut must mustNot => contentWordsOf must ++ contentWordsOf mustNot
  | _ => []

def contentWordsOf : List Plan → List (List Char)
  | [] => []
  | p :: ps => contentWords p ++ contentWordsOf ps

end

def exactly (field : KeywordField) (s : List Char) : Plan := keyword field (Text.lower s)

def pattern (field : KeywordField) (s : List Char) : Plan :=
  regex field (Query.globRegex (Text.lower s))

def nameWith (s : List Char) : Plan :=
  regex .name (['.', '*'] ++ Query.escapeRegex (Text.lower s) ++ ['.', '*'])

/-- A text in an analyzed field; a text without tokens selects nothing. -/
def analyzed (field : TextField) (s : List Char) (quoted : Bool) : Plan :=
  match (field.analyze s).map (·.text) with
  | [] => none
  | [w] => word field w
  | ws => if quoted then phrase field ws else words field ws

def free : Query.Value → Plan
  | .term s => anyOf [nameWith s.toList, analyzed .title s.toList false,
      analyzed .content s.toList false, exactly .tags s.toList]
  | .phrase s => anyOf [exactly .name s.toList, analyzed .title s.toList true,
      analyzed .content s.toList true]
  | .wildcard s => anyOf [pattern .name s.toList, pattern .tags s.toList]
  | .kind k => anyOf [exactly .kind k.name.toList]

def keywordValue (field : KeywordField) : Query.Value → Plan
  | .term s | .phrase s => exactly field s.toList
  | .wildcard s => pattern field s.toList
  | .kind k => exactly field k.name.toList

/-- A value in an analyzed field; the parser makes only words and phrases for these. -/
def textValue (field : TextField) : Query.Value → Plan
  | .term s | .wildcard s => analyzed field s.toList false
  | .phrase s => analyzed field s.toList true
  | .kind k => analyzed field k.name.toList false

def ofClause (c : Query.Clause) : Plan :=
  match c.field with
  | Option.none => free c.value
  | some .name => keywordValue .name c.value
  | some .tags => keywordValue .tags c.value
  | some .mimeType => keywordValue .mimeType c.value
  | some .kind => keywordValue .kind c.value
  | some .title => textValue .title c.value
  | some .content => textValue .content c.value

def ofQuery (q : Query) : Plan :=
  if q.isMatchAll then all
  else
    let must := (q.clauses.filter fun c => c.occur == .must).map ofClause
    let mustNot := (q.clauses.filter fun c => c.occur == .mustNot).map ofClause
    allBut (if q.isPurelyNegative then all :: must else must) mustNot

section

variable [RegexBuilder]

mutual

/-- Why an expression of the plan is refused, for the first one that is. -/
def refusal? : Plan → Option String
  | regex _ e => RegexBuilder.refusal? e
  | anyOf should => refusalOf? should
  | allBut must mustNot => (refusalOf? must).or (refusalOf? mustNot)
  | _ => Option.none

def refusalOf? : List Plan → Option String
  | [] => Option.none
  | p :: ps => (refusal? p).or (refusalOf? ps)

end

/-- The plan of a query, whose clauses are gone through in their order. -/
def compile (q : Query) : Except IndexError Plan :=
  match q.clauses.findSome? fun c => (ofClause c).refusal? with
  | some reason => .error (.store reason)
  | Option.none => .ok (ofQuery q)

end

end Plan

end ResourceIndex.Store
