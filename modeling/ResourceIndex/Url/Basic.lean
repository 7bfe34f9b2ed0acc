import ResourceIndex.Url.Host
/-
Absolute URLs. The path is a text that begins with a slash, unless the scheme is not known and no
slash follows it; then it is opaque and segments cannot be added to it.
-/
namespace ResourceIndex

structure Url where
  scheme : List Char
  host : Option Host
  port : Option Nat
  isOpaque : Bool
  path : List Char
  query : Option (List Char)
  fragment : Option (List Char)
deriving DecidableEq, Repr

namespace Url

/-- Schemes whose URLs have a host and a path. -/
def isSpecial (scheme : List Char) : Bool :=
  ["http", "https", "ws", "wss", "ftp", "file"].any fun s => s.toList == scheme

def isFile (scheme : List Char) : Bool := scheme == "file".toList

def defaultPort (scheme : List Char) : Option Nat :=
  match String.ofList scheme with
  | "http" | "ws" => some 80
  | "https" | "wss" => some 443
  | "ftp" => some 21
  | _ => none

/-- Characters that are passed over wherever they stand. -/
def isPassedOver (c : Char) : Bool := c = '\t' || c = '\n' || c = '\r'

def fragmentSet : List Char := [' ', '"', '<', '>', '\x60']

def pathSet : List Char := fragmentSet ++ ['#', '?', '\x7b', '\x7d']

/-- What is encoded in a segment that is added to a path. -/
def segmentSet (scheme : List Char) : List Char :=
  pathSet ++ ['/', '%'] ++ if isSpecial scheme then ['\\'] else []

def querySet (scheme : List Char) : List Char :=
  [' ', '"', '#', '<', '>'] ++ if isSpecial scheme then ['\''] else []

/-- The scheme in lower case and what follows its colon. -/
def scheme? (s : List Char) : Option (List Char × List Char) :=
  match Text.cutAt? ':' s with
  | some (scheme, rest) =>
    match scheme with
    | c :: _ =>
      if c.isAlpha && scheme.all fun c => c.isAlphanum || c = '+' || c = '-' || c = '.' then
        some (Text.lowerAscii scheme, rest)
      else none
    | [] => none
  | none => none

def endsAuthority (special : Bool) (c : Char) : Bool :=
  c = '/' || c = '?' || c = '#' || (special && c = '\\')

/-- The text after the last at sign of an authority; a sign with nothing around it is an error. -/
def afterUserInfo (authority rest : List Char) : Except UrlError (List Char × Bool) :=
  if authority.contains '@' then
    let host := Text.afterLast '@' authority
    let user := authority.take (authority.length - host.length - 1)
    if user = [] ∧ host = [] ∧ rest ≠ [] then .error .emptyHost
    else .ok (host, user.any fun c => c != ':')
  else .ok (authority, false)

/-- The host in front of a port, colons between brackets belonging to the host. -/
def splitPort (inside : Bool) : List Char → List Char × Option (List Char)
  | [] => ([], none)
  | c :: s =>
    if c = ':' ∧ ¬ inside then ([], some s)
    else
      let (host, port) := splitPort (if c = '[' then true else if c = ']' then false else inside) s
      (c :: host, port)

/-- The port; none for an empty text and for the port that the scheme has anyway. -/
def portNumber (scheme s : List Char) : Except UrlError (Option Nat) :=
  let digits := s.takeWhile Char.isDigit
  let n := Text.digitsValue digits
  if digits.length ≠ s.length ∨ 65535 < n then .error .invalidPort
  else .ok (if digits = [] ∨ some n = defaultPort scheme then none else some n)

def authority (scheme : List Char) (text rest : List Char) :
    Except UrlError (Option Host × Option Nat) := do
  let special := isSpecial scheme
  let (hostPort, hasUser) ← afterUserInfo text rest
  let (hostText, portText) := splitPort false hostPort
  if special && hostText.isEmpty then throw .emptyHost
  let host ← if special then Host.parse hostText else Host.parseOpaque hostText
  if hostText.isEmpty && (portText.isSome || hasUser) then throw .emptyHost
  let p ← match portText with
    | some t => portNumber scheme t
    | none => pure none
  return (if hostText.isEmpty then none else some host, p)

/-- The path that ends with a slash, without its last segment. -/
def climb (path : List Char) : List Char :=
  let shorter := path.dropLast
  if shorter.contains '/' then shorter.take (shorter.length - (Text.afterLast '/' shorter).length)
  else path

def isDot (s : List Char) : Bool := s == ['.'] || Text.lowerAscii s == "%2e".toList

def isDoubleDot (s : List Char) : Bool :=
  ["..", "%2e%2e", "%2e.", ".%2e"].any fun t => t.toList == Text.lowerAscii s

/-- A path that ends with a slash, followed by an encoded segment. -/
def addSegment (path segment : List Char) : List Char :=
  if isDoubleDot segment then climb path else if isDot segment then path else path ++ segment

def addSegments (path : List Char) : List (List Char) → List Char
  | [] => path
  | [segment] => addSegment path segment
  | segment :: rest =>
    let path := addSegment path segment
    addSegments (if path.getLast? = some '/' ∧ (isDot segment ∨ isDoubleDot segment) then path
      else path ++ ['/']) rest

/-- The path of a text that begins with its first slash or without one. -/
def hierarchical (special : Bool) (text : List Char) : List Char :=
  let text := if special then text.map fun c => if c = '\\' then '/' else c else text
  let body := match text with
    | '/' :: r => r
    | r => r
  if text = [] ∧ ¬ special then []
  else addSegments ['/'] ((Text.splitOn '/' body).map (Text.percentEncode pathSet))

/-- The text before the first of the given characters, and what starts with it. -/
def cutBefore (stop : Char → Bool) (s : List Char) : List Char × List Char :=
  (s.takeWhile fun c => !stop c, s.dropWhile fun c => !stop c)

def tail (scheme s : List Char) : Option (List Char) × Option (List Char) :=
  let (front, fragment) := match Text.cutAt? '#' s with
    | some (front, f) => (front, some (Text.percentEncode fragmentSet f))
    | none => (s, none)
  match front with
  | '?' :: q => (some (Text.percentEncode (querySet scheme) q), fragment)
  | _ => (none, fragment)

def withPath (scheme : List Char) (host : Option Host) (port : Option Nat) (s : List Char) : Url :=
  let (path, rest) := cutBefore (fun c => c = '?' || c = '#') s
  let (query, fragment) := tail scheme rest
  ⟨scheme, host, port, false, hierarchical (isSpecial scheme) path, query, fragment⟩

def withAuthority (scheme s : List Char) : Except UrlError Url := do
  let (text, rest) := cutBefore (endsAuthority (isSpecial scheme)) s
  let (host, port) ← authority scheme text rest
  return withPath scheme host port rest

/-- A file's URL after the colon; a drive letter is no host. -/
def fileUrl (scheme s : List Char) : Except UrlError Url := do
  let isSlash (c : Char) := c = '/' || c = '\\'
  match s with
  | a :: b :: r =>
    if isSlash a && isSlash b then
      let (text, rest) := cutBefore (endsAuthority true) r
      let isDrive := match text with
        | [c, d] => c.isAlpha && (d = ':' || d = '|')
        | _ => false
      if text.isEmpty || isDrive then return withPath scheme none none r
      let host ← Host.parse text
      return withPath scheme (if host = .domain "localhost".toList then none else some host) none rest
    else return withPath scheme none none s
  | _ => return withPath scheme none none s

def parseTrimmed (s : List Char) : Except UrlError Url :=
  match scheme? s with
  | none => .error .relativeWithoutBase
  | some (scheme, rest) =>
    if isFile scheme then fileUrl scheme rest
    else if isSpecial scheme then
      withAuthority scheme (rest.dropWhile fun c => c = '/' || c = '\\')
    else match rest with
      | '/' :: '/' :: r => withAuthority scheme r
      | '/' :: _ => .ok (withPath scheme none none rest)
      | _ =>
        let (path, end_) := cutBefore (fun c => c = '?' || c = '#') rest
        let (query, fragment) := tail scheme end_
        .ok ⟨scheme, none, none, true, Text.percentEncode [] path, query, fragment⟩

def parse (text : String) : Except UrlError Url :=
  let isEdge (c : Char) : Bool := c.toNat ≤ 32
  let s := ((text.toList.dropWhile isEdge).reverse.dropWhile isEdge).reverse
  parseTrimmed (s.filter fun c => !isPassedOver c)

def opaqueText (u : Url) : List Char :=
  let part (mark : Char) : Option (List Char) → List Char
    | some s => mark :: s
    | none => []
  u.scheme ++ [':'] ++ u.path ++ part '?' u.query ++ part '#' u.fragment

/-- The path without an empty segment at its end. -/
def popEmpty (path : List Char) : List Char :=
  if 1 < path.length ∧ path.getLast? = some '/' then path.dropLast else path

/-- A path with one more segment; the segments `.` and `..` are dropped. -/
def pushSegment (scheme path segment : List Char) : List Char :=
  if segment = ['.'] ∨ segment = ['.', '.'] then path
  else
    let path := if path.length = 1 then path else path ++ ['/']
    addSegment path (Text.percentEncode (segmentSet scheme) (segment.filter fun c => !isPassedOver c))

def extend (u : Url) (segments : List (List Char)) : Url :=
  { u with path := segments.foldl (pushSegment u.scheme) (popEmpty u.path) }

def withFields (u : Url) (fields : List (List Char × List Char)) : Url :=
  let text := fields.map fun (n, v) => Text.formEncode n ++ '=' :: Text.formEncode v
  if fields = [] then u
  else match u.query with
    | none | some [] => { u with query := some (Text.join ['&'] text) }
    | some q => { u with query := some (q ++ '&' :: Text.join ['&'] text) }

/-- What is asked of the host: the path and the query. -/
def target (u : Url) : List Char :=
  u.path ++ match u.query with
    | some q => '?' :: q
    | none => []

end Url

end ResourceIndex
