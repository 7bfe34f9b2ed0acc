import ResourceIndex.Batch
import ResourceIndex.Cluster.Exchange
import ResourceIndex.Json.Printer
import ResourceIndex.Json.Reader
import ResourceIndex.Settings.Basic
import ResourceIndex.Text.Utf8
/-
A client of one cluster and one index. Paths are made of segments, each encoded as far as needed,
and a reply counts only if its status is one of success.
-/
namespace ResourceIndex.Cluster

structure Client where
  base : Url
  index : String
  authorization : Option String
  userAgent : String
deriving DecidableEq, Repr

namespace Client

def isHeaderValue (s : String) : Bool :=
  s.toList.all fun c => c = '\t' || (32 ≤ c.toNat && c.toNat ≠ 127)

/-- The header for a user with a password, which may be missing. -/
def basicAuthorization (username : String) (password : Option String) : String :=
  let text := username.toList ++ ':' :: (password.getD "").toList
  String.ofList ("Basic ".toList ++ Text.base64 (Text.bytesOf text))

/-- The client for some settings; the user agent is looked at before the address. -/
def ofSettings (s : ClusterSettings) : Except IndexError Client :=
  if !isHeaderValue s.userAgent then .error (.http "builder error")
  else match Url.parse s.url with
    | .error e => .error (.unhealthy ("invalid cluster url '" ++ s.url ++ "': " ++ e.message))
    | .ok base => .ok {
      base := base
      index := s.index
      authorization := s.username.map fun u => basicAuthorization u s.password
      userAgent := s.userAgent }

def address (c : Client) (segments : List String) (fields : List (String × String)) :
    Except IndexError Url :=
  if c.base.isOpaque then
    .error (.unhealthy ("cluster url '" ++ String.ofList c.base.opaqueText ++ "' cannot be a base"))
  else .ok ((c.base.extend (segments.map String.toList)).withFields
    (fields.map fun (n, v) => (n.toList, v.toList)))

variable {σ : Type} (wire : Wire σ) (c : Client)

def send (method : Method) (url : Url) (payload : Option Payload) : Action σ (Nat × String) := do
  let request : Request := ⟨method, url, c.authorization, c.userAgent, payload⟩
  match ← ExceptT.lift (wire request) with
  | .answered status body => return (status, body)
  | .lost => throw (.http "error sending request")

def value (reply : Nat × String) : Except IndexError Json :=
  if !Status.isSuccess reply.1 then .error (.httpStatus (Status.text reply.1) reply.2)
  else match Json.ofText? reply.2 with
    | some v => .ok v
    | none => .error (.http "error decoding response body: no JSON")

def json (method : Method) (segments : List String) (fields : List (String × String))
    (body : Option Json) : Action σ Json := do
  let url ← .ofExcept (c.address segments fields)
  let payload := body.map fun v => ⟨"application/json", v.text⟩
  .ofExcept (value (← c.send wire method url payload))

def isPresent (segments : List String) : Action σ Bool := do
  let url ← .ofExcept (c.address segments [])
  let (status, _) ← c.send wire .head url none
  if Status.isSuccess status then return true
  else if status = 404 then return false
  else throw (.httpStatus (Status.text status) ("HEAD /" ++ "/".intercalate segments ++ " failed"))

def ping : Action σ Unit := do
  let url ← .ofExcept (c.address [] [])
  let (status, _) ← tryCatch (c.send wire .head url none) fun e =>
    throw (.unhealthy ("cluster unreachable: " ++ e.message))
  if !Status.isSuccess status then
    throw (.unhealthy ("cluster ping returned " ++ Status.text status))

def source? (id : String) : Action σ (Option Json) := do
  let url ← .ofExcept (c.address [c.index, "_doc", id] [])
  let reply ← c.send wire .get url none
  if reply.1 = 404 then return none
  let document ← .ofExcept (value reply)
  match document.get? "found" with
  | some (.bool false) => return none
  | _ => return document.get? "_source"

/-- Sends the lines of a bulk request; what it writes is seen by later requests. -/
def bulk (lines : List Char) : Action σ Json := do
  let url ← .ofExcept (c.address ["_bulk"] [("refresh", "true")])
  let reply ← c.send wire .post url (some ⟨"application/x-ndjson", String.ofList lines⟩)
  .ofExcept (value reply)

end Client

end ResourceIndex.Cluster
