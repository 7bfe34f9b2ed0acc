import ResourceIndex.Query.Basic
import ResourceIndex.Text.Digits
/-
What can go wrong in an index and in the services over it. Each cause is a constructor; the text
for people is made in one place.
-/
namespace ResourceIndex

inductive IndexError where
  | validation : String → IndexError
  | invalidId : String → IndexError
  | notFound : String → IndexError
  | unhealthy : String → IndexError
  | invalidBatchSize : IndexError
  /-- Some of the operations of one request were refused. -/
  | bulkFailure (failed total : Nat) (reason : String) : IndexError
  | queryFailure : String → IndexError
  /-- An exchange with the cluster broke down. -/
  | http : String → IndexError
  /-- The cluster answered with a status other than success. -/
  | httpStatus (status message : String) : IndexError
  | store : String → IndexError
  | serialization : String → IndexError
  | io : String → IndexError
  | channel : String → IndexError
  | task : String → IndexError
deriving DecidableEq, Repr, Inhabited

namespace IndexError

def message : IndexError → String
  | validation text => "Invalid query: " ++ text
  | invalidId text => "Invalid resource id: " ++ text
  | notFound id => "Resource not found: " ++ id
  | unhealthy text => "Index backend unhealthy: " ++ text
  | invalidBatchSize => "Batch size must be greater than 0"
  | bulkFailure failed total reason =>
    "Bulk request failed for " ++ Text.natString failed ++ " of " ++ Text.natString total ++
      " operations: " ++ reason
  | queryFailure text => "Query-addressed operation failed: " ++ text
  | http text => "HTTP request failed: " ++ text
  | httpStatus status text => "HTTP " ++ status ++ ": " ++ text
  | store text => "Tantivy error: " ++ text
  | serialization text => "Serialization error: " ++ text
  | io text => "I/O error: " ++ text
  | channel text => "Channel error: " ++ text
  | task text => "Background task failed: " ++ text

/-- Whether the caller's input is at fault. -/
def isValidation : IndexError → Bool
  | validation _ | invalidId _ => true
  | _ => false

def isNotFound : IndexError → Bool
  | notFound _ => true
  | _ => false

def ofInvalidId (e : InvalidId) : IndexError := invalidId e.text

def ofFault (e : Query.Fault) : IndexError := validation e.reason

end IndexError

inductive ServiceError where
  | badRequest : IndexError → ServiceError
  | missing : IndexError → ServiceError
  | missingScope : String → ServiceError
  | failed : IndexError → ServiceError
deriving DecidableEq, Repr, Inhabited

namespace ServiceError

/-- Faults of the input are the client's, all but missing resources are internal. -/
def ofIndexError (e : IndexError) : ServiceError :=
  if e.isValidation then badRequest e else if e.isNotFound then missing e else failed e

def message : ServiceError → String
  | badRequest e => "Bad request: " ++ e.message
  | missing e => "Not found: " ++ e.message
  | missingScope scope => "Not found: scope " ++ scope
  | failed e => "Internal error: " ++ e.message

end ServiceError

end ResourceIndex
