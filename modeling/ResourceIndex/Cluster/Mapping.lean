import ResourceIndex.Json.Basic
/-
The definition of the resource index in a cluster: how fields are compared and cut, and how a path
is cut into the paths above it.
-/
namespace ResourceIndex.Cluster.Mapping

open Json

def ofType (name : String) (rest : Members) : Json := object (("type", .str name) :: rest)

def keyword : Json := ofType "keyword" []

def loweredKeyword : Json := ofType "keyword" [("normalizer", .str "lowercase_normalizer")]

/-- Cuts `./a/b` into `.`, `./a` and `./a/b`. -/
def pathAnalyzer : String := "path_tree"

def settings : Json := object [("analysis", object [
  ("normalizer", object [
    ("lowercase_normalizer", ofType "custom" [("filter", strings ["lowercase"])])]),
  ("tokenizer", object [("path_tree", ofType "path_hierarchy" [("delimiter", .str "/")])]),
  ("analyzer", object [(pathAnalyzer, ofType "custom" [("tokenizer", .str "path_tree")])])])]

def properties : Json := object [
  ("id", keyword),
  ("root_id", keyword),
  ("parent_id", keyword),
  ("resource_type", keyword),
  ("path", ofType "keyword" [("fields", object [
    ("tree", ofType "text" [
      ("analyzer", .str pathAnalyzer), ("search_analyzer", .str "keyword")])])]),
  ("name", loweredKeyword),
  ("tags", loweredKeyword),
  ("mime_type", loweredKeyword),
  ("title", ofType "text" []),
  ("content", ofType "text" [("analyzer", .str "english")]),
  ("deleted", ofType "boolean" []),
  ("hidden", ofType "boolean" []),
  ("size", ofType "long" []),
  ("mtime", ofType "date" [])]

def definition : Json := object [
  ("settings", settings), ("mappings", object [("properties", properties)])]

end ResourceIndex.Cluster.Mapping
