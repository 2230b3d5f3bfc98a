/-
Samples and what becomes of them.

A sample is a measured value with everything that identifies its series.  Once
its labels are put together it is an emission, which a sink takes or refuses.
-/
import Scrape.Event
import Scrape.Instant
import Scrape.SortedLabels
import Scrape.Labels

namespace Scrape

/-- A sample as it was found. -/
structure Sample where
  name : String := ""
  unit : String := ""
  /-- The labels of the metric. -/
  metric : SortedLabels := .empty
  /-- The labels of the resource it was measured at. -/
  resource : SortedLabels := .empty
  /-- Further labels, as a JSON object if all is well. -/
  payload : List UInt8 := []
  /-- The bit pattern of the measured double, which is never looked into. -/
  value : UInt64 := 0
  /-- When it was measured.  Samples without a time differ by their labels alone. -/
  time : Option Instant := none

/-- A sample with its labels put together. -/
structure Emission where
  name : String
  labels : Labels
  value : UInt64
  time : Option Instant
deriving DecidableEq, Repr

/-- What becomes of a sample. -/
inductive Outcome where
  /-- The sink took it. -/
  | emitted
  /-- It was seen before in this scrape. -/
  | duplicate
  /-- The sink refused it. -/
  | failed
deriving DecidableEq, Repr

/-- Where samples go.  A sink answers by its state and may change it with every call; `σ` is the
type of its state. -/
structure Sink (σ : Type) where
  emit : σ → Emission → Except Fault Unit × σ

namespace Tally

/-- One more outcome. -/
def record (t : Tally) : Outcome → Tally
  | .emitted => { t with emitted := t.emitted + 1 }
  | .duplicate => { t with duplicates := t.duplicates + 1 }
  | .failed => { t with failed := t.failed + 1 }

/-- The tally of a list of outcomes. -/
def ofOutcomes (outcomes : List Outcome) : Tally :=
  outcomes.foldl record {}

end Tally

end Scrape
