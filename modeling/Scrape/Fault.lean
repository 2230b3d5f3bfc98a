/-
What can go wrong.

One type for every failure a caller of this library can see, and one function
for its wording.
-/
import Scrape.Json.Fault
import Scrape.Metrics.Descriptor

namespace Scrape

/-- Why a payload that is blank, or that is JSON, holds no labels. -/
inductive Refusal where
  | empty
  | null
  | array
  | scalar
deriving DecidableEq, Repr

/-- The wording of a refusal. -/
def Refusal.message : Refusal → String
  | empty => "empty payload"
  | null => "null payload"
  | array => "array payload"
  | scalar => "scalar payload"

/-- A failure. -/
inductive Fault where
  /-- An exported metric could not be made or registered. -/
  | metrics (fault : Metrics.Fault)
  /-- A payload of labels is not JSON. -/
  | json (fault : Json.Fault)
  /-- A payload of labels is not an object. -/
  | payload (refusal : Refusal)
  /-- A sink refused a sample. -/
  | sink (message : String)
deriving DecidableEq, Repr

/-- The wording of a failure. -/
def Fault.message : Fault → String
  | metrics fault => "Prometheus error: " ++ fault.message
  | json fault => "Json error: " ++ fault.message
  | payload refusal => "Invalid system labels: " ++ refusal.message
  | sink message => "Sink error: " ++ message

end Scrape
