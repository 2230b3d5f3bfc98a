/-
Candidates.

A candidate is a sample whose labels are put together and whose fingerprint is
known, so that all that is left to decide is whether it goes to the sink.  It
goes there unless its fingerprint is marked.  The mark is set before the sink
is asked and removed when the sink refuses; the next candidate with the same
fingerprint is then tried in its place.
-/
import Scrape.Ledger
import Scrape.Sample

namespace Scrape

/-- What a sink would get, and its fingerprint. -/
structure Candidate where
  emission : Emission
  fingerprint : UInt64
deriving DecidableEq, Repr

/-- How far a scrape has come: the ledger and the state of the sink. -/
structure Progress (σ : Type) where
  ledger : Ledger
  sink : σ
deriving Repr

namespace Candidate

variable {σ : Type}

/-- Marks a candidate and hands it to the sink.  The mark stays only if the sink takes it. -/
def offer (c : Candidate) (sink : Sink σ) (p : Progress σ) : Logged (Outcome × Progress σ) := do
  let (seen, ledger) ← p.ledger.check c.emission.name c.fingerprint
  if seen then
    pure (.duplicate, { p with ledger })
  else
    match sink.emit p.sink c.emission with
    | (.ok (), state) => pure (.emitted, ⟨ledger, state⟩)
    | (.error fault, state) =>
      Logged.report (.refused c.emission.name fault)
      pure (.failed, ⟨ledger.unmark c.fingerprint, state⟩)

/-- Offers candidates in the order in which they arrive.  Each brings the events of its making. -/
def offerAll (sink : Sink σ) :
    List (Logged Candidate) → Progress σ → Logged (List Outcome × Progress σ)
  | [], p => pure ([], p)
  | arrival :: arrivals, p => do
    let (outcome, p) ← (← arrival).offer sink p
    Prod.map (outcome :: ·) id <$> offerAll sink arrivals p

end Candidate

end Scrape
