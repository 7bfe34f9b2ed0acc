import ResourceIndex.Cluster.Cascade
import ResourceIndex.Store.Basic
/-
What the cluster does with queries and scripts: which documents a query selects, and how a change
by query alters the stored documents. How analyzed fields are cut into words is left open.
-/
namespace ResourceIndex.Cluster

/-- Whether a pattern of the cluster stands for the whole text; a backslash makes the character
after it stand for itself. -/
def wildcardFits : List Char → List Char → Bool
  | [], s => s.isEmpty
  | '\\' :: p :: ps, s =>
    match s with
    | x :: s => p == x && wildcardFits ps s
    | [] => false
  | p :: ps, [] => p == '*' && wildcardFits ps []
  | p :: ps, x :: s =>
    if p = '*' then wildcardFits ps (x :: s) || wildcardFits (p :: ps) s
    else (p == '?' || p == x) && wildcardFits ps s
termination_by ps s => (ps.length, s.length)

/-- The paths above a path, and the path itself: what ends before a slash, and all of it. -/
def pathTree : List Char → List (List Char)
  | [] => [[]]
  | c :: s =>
    let longer := (pathTree s).map (c :: ·)
    if c = '/' then [] :: longer else longer

/-- How texts of analyzed fields are cut into words. -/
structure Analyzer where
  words : IndexField → List Char → List (List Char)

/-- The values of a resource in a field that is compared as a whole. -/
def IndexField.valuesOf : IndexField → Resource → List (List Char)
  | name, r => [Text.lowerChars r.document.name.toList]
  | tags, r => r.document.tags.toList.map fun t => Text.lowerChars t.toList
  | mimeType, r => [Text.lowerChars r.document.mimeType.toList]
  | kind, r => [r.kind.name.toList]
  | rootId, r => [r.rootId.toList]
  | pathTree, r => Cluster.pathTree r.path.toList
  | _, _ => []

def IndexField.textOf : IndexField → Resource → List Char
  | title, r => r.document.title.toList
  | content, r => r.document.content.toList
  | _, _ => []

def holdsRun (sought : List (List Char)) : List (List Char) → Bool
  | [] => sought.isEmpty
  | w :: ws => sought.isPrefixOf (w :: ws) || holdsRun sought ws

namespace Dsl

mutual

/-- Whether a query selects a resource. A text without words selects nothing. -/
def selects (a : Analyzer) : Dsl → Resource → Bool
  | matchAll, _ => true
  | term field value, r => (field.valuesOf r).contains value.toList
  | flag field value, r => field == .deleted && r.deleted == value
  | wildcard field pattern, r => (field.valuesOf r).any (wildcardFits pattern.toList)
  | words field text, r =>
    let sought := a.words field text.toList
    !sought.isEmpty && sought.all (a.words field (field.textOf r)).contains
  | phrase field text, r =>
    let sought := a.words field text.toList
    !sought.isEmpty && holdsRun sought (a.words field (field.textOf r))
  | ids l, r => l.contains r.id
  | anyOf should, r => someSelects a should r
  | allBut must mustNot, r => allSelect a must r && !someSelects a mustNot r
  | filtered must filter, r => allSelect a must r && allSelect a filter r

def someSelects (a : Analyzer) : List Dsl → Resource → Bool
  | [], _ => false
  | q :: qs, r => selects a q r || someSelects a qs r

def allSelect (a : Analyzer) : List Dsl → Resource → Bool
  | [], _ => true
  | q :: qs, r => selects a q r && allSelect a qs r

end

end Dsl

namespace Script

/-- The path that the script of a move writes: `new_path` for `old_path`, and in front of what
follows `old_path` and a slash. -/
def movedPath (oldPath newPath path : String) : String :=
  if path = oldPath then newPath
  else if (oldPath ++ "/").toList.isPrefixOf path.toList then
    newPath ++ String.ofList (path.toList.drop oldPath.length)
  else path

def run : Script → Resource → Resource
  | move id parentId name oldPath newPath, r =>
    let r := if r.id = id then
        { r with parentId := parentId, document := { r.document with name := name } }
      else r
    { r with path := movedPath oldPath newPath r.path }
  | setDeleted deleted, r => { r with deleted := deleted }

end Script

def ByQuery.run (a : Analyzer) : ByQuery → Store → Store
  | .update query script, s =>
    ⟨s.docs.map fun d => if query.selects a d then script.run d else d⟩
  | .delete query, s => ⟨s.docs.filter fun d => !query.selects a d⟩

end ResourceIndex.Cluster
