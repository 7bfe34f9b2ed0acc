import ResourceIndex.Settings.Level
import ResourceIndex.Text.Blank
import ResourceIndex.Url.Basic
/-
Settings of the service, what they are when nothing is said, and what is asked of them before the
service starts.
-/
namespace ResourceIndex

structure LocalSettings where
  dataPath : String
  writerHeapBytes : Nat
deriving DecidableEq, Repr

/-- An index in a cluster. Times are in milliseconds. -/
structure ClusterSettings where
  url : String
  index : String
  username : Option String
  password : Option String
  timeout : Nat
  connectTimeout : Nat
  /-- How long the cluster may take to report its health at the start. -/
  healthTimeout : Nat
  /-- Whether certificates are left unchecked. -/
  insecure : Bool
  userAgent : String
deriving DecidableEq, Repr

inductive EngineSettings where
  | embedded : LocalSettings → EngineSettings
  | clustered : ClusterSettings → EngineSettings
deriving DecidableEq, Repr

structure EventSettings where
  /-- How many workers take events from the stream. -/
  consumers : Nat
  debounce : Nat
  /-- How long a busy space can put off being read anew. -/
  debounceMaxWait : Nat
  /-- Whether a file counts when it is ready and not already when it is uploaded. -/
  asyncUploads : Bool
  consumerGroup : String
deriving DecidableEq, Repr

structure Settings where
  engine : EngineSettings
  events : EventSettings
  /-- The size of the batches in which a space is written. -/
  batchSize : Nat
  logLevel : String
deriving DecidableEq, Repr

def LocalSettings.standard : LocalSettings := ⟨"data/search", 50000000⟩

def ClusterSettings.standard : ClusterSettings where
  url := "http://localhost:9200"
  index := "spacesearch-resource"
  username := none
  password := none
  timeout := 30000
  connectTimeout := 10000
  healthTimeout := 5000
  insecure := false
  userAgent := "spacesearch/0.1.72"

def EventSettings.standard : EventSettings := ⟨1, 1000, 30000, true, "search-pull"⟩

namespace Settings

def standard : Settings := ⟨.embedded .standard, .standard, 50, "info"⟩

inductive Fault where
  | emptyBatches : Fault
  | noConsumers : Fault
  /-- The longest wait is shorter than the ordinary one. -/
  | waitTooShort : Fault
  | unknownLevel : String → Fault
  | emptyIndex : Fault
  | invalidUrl : String → UrlError → Fault
deriving DecidableEq, Repr

namespace Fault

def reason : Fault → String
  | emptyBatches => "indexing.batch_size must be greater than 0"
  | noConsumers => "events.num_consumers must be greater than 0"
  | waitTooShort =>
    "events.debounce_max_wait_ms must not be shorter than events.debounce_duration_ms"
  | unknownLevel level => "unknown log level '" ++ level ++ "'"
  | emptyIndex => "engine.index must not be empty"
  | invalidUrl url e => "invalid engine.url '" ++ url ++ "': " ++ e.message

def message (f : Fault) : String := "Validation error: " ++ f.reason

end Fault

def checkEngine : EngineSettings → Except Fault Unit
  | .embedded _ => .ok ()
  | .clustered c =>
    if Text.trim c.index.toList = [] then .error .emptyIndex
    else match Url.parse c.url with
      | .ok _ => .ok ()
      | .error e => .error (.invalidUrl c.url e)

/-- Accepts settings that the service can run with, or tells the first fault. -/
def validate (s : Settings) : Except Fault Unit :=
  if s.batchSize = 0 then .error .emptyBatches
  else if s.events.consumers = 0 then .error .noConsumers
  else if s.events.debounceMaxWait < s.events.debounce then .error .waitTooShort
  else if LogLevel.read? s.logLevel.toList = none then .error (.unknownLevel s.logLevel)
  else checkEngine s.engine

end Settings

end ResourceIndex
