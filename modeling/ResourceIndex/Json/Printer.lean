import ResourceIndex.Json.Basic
import ResourceIndex.Text.Digits
/- The compact text of a JSON value: no blanks, and only the escapes that are needed. -/
namespace ResourceIndex.Json

open Text (intText)

def escaped (c : Char) : List Char :=
  if c = '"' then ['\\', '"']
  else if c = '\\' then ['\\', '\\']
  else if c = '\n' then ['\\', 'n']
  else if c = '\r' then ['\\', 'r']
  else if c = '\t' then ['\\', 't']
  else if c = '\x08' then ['\\', 'b']
  else if c = '\x0c' then ['\\', 'f']
  else if c.toNat < 32 then ['\\', 'u', '0', '0', Nat.digitChar (c.toNat / 16), Nat.digitChar (c.toNat % 16)]
  else [c]

def quoted (s : List Char) : List Char := '"' :: s.flatMap escaped ++ ['"']

mutual

/-- The text of a value; a number that is not finite has no text of its own. -/
def render : Json → List Char
  | .null => ['n', 'u', 'l', 'l']
  | .bool true => ['t', 'r', 'u', 'e']
  | .bool false => ['f', 'a', 'l', 's', 'e']
  | .int n => intText n
  | .float x => if x.isFinite then x.text else ['n', 'u', 'l', 'l']
  | .str s => quoted s.toList
  | .arr [] => ['[', ']']
  | .arr (v :: vs) => '[' :: render v ++ renderRest vs
  | .obj [] => ['\x7b', '\x7d']
  | .obj ((n, v) :: ms) => '\x7b' :: quoted n.toList ++ ':' :: render v ++ renderMembers ms

/-- The elements after the first one, and the closing bracket. -/
def renderRest : List Json → List Char
  | [] => [']']
  | v :: vs => ',' :: render v ++ renderRest vs

def renderMembers : List (String × Json) → List Char
  | [] => ['\x7d']
  | (n, v) :: ms => ',' :: quoted n.toList ++ ':' :: render v ++ renderMembers ms

end

def text (v : Json) : String := String.ofList v.render

end ResourceIndex.Json
