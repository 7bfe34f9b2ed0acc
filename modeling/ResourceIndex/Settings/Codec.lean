import ResourceIndex.Json.Record
import ResourceIndex.Settings.Basic
import ResourceIndex.Toml.Printer
/-
Settings as values and as written documents. Every field has a value of its own when it is not
given, all but the kind of the engine when an engine is given.
-/
namespace ResourceIndex

open Json Toml

/-- How the values of fields are taken from a document. -/
structure Reading where
  record? : List String → Json → Option Members
  nat? : Json → Option Nat
  bool? : Json → Option Bool
  string? : Json → Option String

namespace Reading

/-- A value of another kind is never taken for the value that is needed. -/
def strict : Reading where
  record? names := Json.record? names 0
  nat? := Json.nat?
  bool? := Json.bool?
  string? := Json.string?

end Reading

namespace LocalSettings

def entries (s : LocalSettings) : List (String × Scalar) :=
  [("data_path", .text s.dataPath), ("writer_heap_bytes", .number s.writerHeapBytes)]

def ofJson? (v : Json) : Option LocalSettings := do
  let m ← Json.record? ["data_path", "writer_heap_bytes"] 0 v
  return {
    dataPath := ← m.defaulted? "data_path" standard.dataPath string?
    writerHeapBytes := ← m.defaulted? "writer_heap_bytes" standard.writerHeapBytes nat? }

end LocalSettings

namespace ClusterSettings

/-- The fields with their values; a field that may be left out and is left out has none. -/
def fields (s : ClusterSettings) : List (String × Option Scalar) := [
  ("url", some (.text s.url)),
  ("index", some (.text s.index)),
  ("username", s.username.map .text),
  ("password", s.password.map .text),
  ("timeout_ms", some (.number s.timeout)),
  ("connect_timeout_ms", some (.number s.connectTimeout)),
  ("health_timeout_ms", some (.number s.healthTimeout)),
  ("insecure", some (.truth s.insecure)),
  ("user_agent", some (.text s.userAgent))]

def entries (s : ClusterSettings) : List (String × Scalar) :=
  s.fields.filterMap fun (name, v) => v.map fun v => (name, v)

def ofJson? (v : Json) : Option ClusterSettings := do
  let m ← Json.record? (standard.fields.map (·.1)) 0 v
  return {
    url := ← m.defaulted? "url" standard.url string?
    index := ← m.defaulted? "index" standard.index string?
    username := ← m.optional? "username" string?
    password := ← m.optional? "password" string?
    timeout := ← m.defaulted? "timeout_ms" standard.timeout nat?
    connectTimeout := ← m.defaulted? "connect_timeout_ms" standard.connectTimeout nat?
    healthTimeout := ← m.defaulted? "health_timeout_ms" standard.healthTimeout nat?
    insecure := ← m.defaulted? "insecure" standard.insecure bool?
    userAgent := ← m.defaulted? "user_agent" standard.userAgent string? }

end ClusterSettings

namespace EngineSettings

def kind : EngineSettings → String
  | embedded _ => "embedded"
  | clustered _ => "clustered"

def ofFields? (kind : String) (v : Json) : Option EngineSettings :=
  match kind with
  | "embedded" => (LocalSettings.ofJson? v).map embedded
  | "clustered" => (ClusterSettings.ofJson? v).map clustered
  | _ => none

/-- An engine is an object with its kind beside its fields, or an array with the kind in front. -/
def ofJson? (v : Json) : Option EngineSettings :=
  match v with
  | .arr (.str kind :: fields) => ofFields? kind (.arr fields)
  | .obj m =>
    match m.lookup "type" with
    | some (.str kind) => ofFields? kind v
    | _ => none
  | _ => none

def fields : EngineSettings → List (String × Option Scalar)
  | embedded s => s.entries.map fun (name, v) => (name, some v)
  | clustered s => s.fields

def toJson (s : EngineSettings) : Json :=
  object (("type", .str s.kind) :: s.fields.map fun (name, v) => (name, Json.option Scalar.toJson v))

def entries : EngineSettings → List (String × Scalar)
  | embedded s => ("type", .text "embedded") :: s.entries
  | clustered s => ("type", .text "clustered") :: s.entries

end EngineSettings

namespace EventSettings

def entries (s : EventSettings) : List (String × Scalar) := [
  ("num_consumers", .number s.consumers),
  ("debounce_duration_ms", .number s.debounce),
  ("debounce_max_wait_ms", .number s.debounceMaxWait),
  ("async_uploads", .truth s.asyncUploads),
  ("consumer_group", .text s.consumerGroup)]

def ofJson? (r : Reading) (v : Json) : Option EventSettings := do
  let m ← r.record? (standard.entries.map (·.1)) v
  return {
    consumers := ← m.defaulted? "num_consumers" standard.consumers r.nat?
    debounce := ← m.defaulted? "debounce_duration_ms" standard.debounce r.nat?
    debounceMaxWait := ← m.defaulted? "debounce_max_wait_ms" standard.debounceMaxWait r.nat?
    asyncUploads := ← m.defaulted? "async_uploads" standard.asyncUploads r.bool?
    consumerGroup := ← m.defaulted? "consumer_group" standard.consumerGroup r.string? }

end EventSettings

namespace Settings

def single? {α : Type} (r : Reading) (name : String) (fallback : α) (read : Json → Option α)
    (v : Json) : Option α := do
  (← r.record? [name] v).defaulted? name fallback read

def ofJson? (r : Reading) (v : Json) : Option Settings := do
  let m ← r.record? ["engine", "events", "indexing", "log"] v
  return {
    engine := ← m.defaulted? "engine" standard.engine EngineSettings.ofJson?
    events := ← m.defaulted? "events" standard.events (EventSettings.ofJson? r)
    batchSize := ← m.defaulted? "indexing" standard.batchSize
      (single? r "batch_size" standard.batchSize r.nat?)
    logLevel := ← m.defaulted? "log" standard.logLevel
      (single? r "level" standard.logLevel r.string?) }

def blocks (s : Settings) : List Block := [
  ⟨"engine", s.engine.entries⟩,
  ⟨"events", s.events.entries⟩,
  ⟨"indexing", [("batch_size", .number s.batchSize)]⟩,
  ⟨"log", [("level", .text s.logLevel)]⟩]

def toJson (s : Settings) : Json :=
  let members (entries : List (String × Scalar)) : Json :=
    object (entries.map fun (name, v) => (name, v.toJson))
  object [
    ("engine", s.engine.toJson),
    ("events", members s.events.entries),
    ("indexing", members [("batch_size", .number s.batchSize)]),
    ("log", members [("level", .text s.logLevel)])]

/-- The document that is saved; settings with a number beyond signed 64 bits have none. -/
def document? (s : Settings) : Option String := Toml.render? s.blocks

end Settings

end ResourceIndex
