/-
The labels of a sample.

A sample has labels from five sources: its unit, its metric, its resource, its
payload and the user.  They are joined into one set in that order, and the
first source to set a key keeps it.  A policy says which labels the user adds,
whether payloads count, and whether the user comes before the payload.
-/
import Scrape.Event
import Scrape.SortedLabels
import Scrape.Labels
import Scrape.Payload

namespace Scrape

/-- Adds the labels of a payload whose keys are absent.  A payload that holds no labels leaves the
set as it is and is reported. -/
def Labels.absorbPayload (s : Labels) (payload : List UInt8) : Logged Labels :=
  match Payload.labels payload with
  | .ok pairs => pure (s.absorb pairs)
  | .error fault => do
    Logged.report (.payloadIgnored fault)
    pure s

/-- How the labels of samples are put together. -/
structure LabelPolicy where
  /-- The labels that every sample gets. -/
  userLabels : SortedLabels := .empty
  /-- Whether payloads count. -/
  payloads : Bool := false
  /-- Whether the labels of the user come before those of the payload. -/
  userFirst : Bool := false

namespace LabelPolicy

/-- The key of the label that holds the unit. -/
def unitKey : String := "unit"

/-- Adds the labels of a payload, if payloads count. -/
def absorbPayload (p : LabelPolicy) (s : Labels) (payload : List UInt8) : Logged Labels :=
  if p.payloads then s.absorbPayload payload else pure s

/-- The labels of a sample. -/
def join (p : LabelPolicy) (unit : String) (metric resource : SortedLabels)
    (payload : List UInt8) : Logged Labels :=
  let own := ((Labels.empty.insertIfNew unitKey unit).absorb metric.toList).absorb
    resource.toList
  if p.userFirst then
    p.absorbPayload (own.absorb p.userLabels.toList) payload
  else do
    let s ← p.absorbPayload own payload
    pure (s.absorb p.userLabels.toList)

end LabelPolicy

end Scrape
