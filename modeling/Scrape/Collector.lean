/-
Collectors.

A collector puts the labels of samples together, drops those it has seen in
this scrape and hands the others to a sink.

Samples come one by one, in a list, or in shards whose labels several workers
put together at once.  Marks and sinks belong to the caller's thread alone:
workers send what they have prepared, and it is offered in the order in which
it arrives.
-/
import Scrape.Candidate
import Scrape.Delivery
import Scrape.Fingerprint
import Scrape.LabelPolicy
import Scrape.Ledger.Exports
import Scrape.Sample

namespace Scrape

/-- What a collector can be told. -/
structure Collector.Options where
  policy : LabelPolicy := {}
  /-- The names of the metrics of its ledger. -/
  names : ExportNames := {}
  /-- How many workers prepare shards; one if it says none. -/
  workers : Nat := 4

/-- A collector.  Its ledger is not part of it, since collectors may share one. -/
structure Collector where
  policy : LabelPolicy
  /-- How many workers prepare shards. -/
  workers : Nat
  workers_pos : 0 < workers

namespace Collector

/-- The collector of some options, for a ledger that is there already. -/
def ofOptions (o : Options) : Collector :=
  ⟨o.policy, max o.workers 1, by omega⟩

/-- The collector of some options and the metrics of a ledger of its own. -/
def create (o : Options) : Except Fault (Collector × Ledger.Exports) :=
  match Ledger.Exports.create o.names with
  | .ok exports => .ok (ofOptions o, exports)
  | .error fault => .error (.metrics fault)

variable {σ : Type}

/-! ## One sample -/

/-- Puts the labels of a sample together. -/
def candidate (c : Collector) (s : Sample) : Logged Candidate := do
  let labels ← c.policy.join s.unit s.metric s.resource s.payload
  pure
    { emission := { name := s.name, labels, value := s.value, time := s.time }
      fingerprint := Fingerprint.of s.name labels.keys labels.values s.time }

/-- Marks a sample, and gives what a sink would get unless it was marked before. -/
def reserve (c : Collector) (s : Sample) (l : Ledger) : Logged (Option Emission × Ledger) := do
  let candidate ← c.candidate s
  let (seen, l) ← l.check candidate.emission.name candidate.fingerprint
  pure (if seen then none else some candidate.emission, l)

/-- Marks a sample and hands it to a sink. -/
def offer (c : Collector) (sink : Sink σ) (s : Sample) (p : Progress σ) :
    Logged (Outcome × Progress σ) := do
  (← c.candidate s).offer sink p

/-! ## Samples in a row -/

/-- The outcomes of samples in a row. -/
def offerAll (c : Collector) (sink : Sink σ) :
    List Sample → Progress σ → Logged (List Outcome × Progress σ)
  | [], p => pure ([], p)
  | s :: samples, p => do
    let (outcome, p) ← c.offer sink s p
    Prod.map (outcome :: ·) id <$> c.offerAll sink samples p

/-- Collects samples in a row. -/
def collect (c : Collector) (sink : Sink σ) (samples : List Sample) (p : Progress σ) :
    Logged (Tally × Progress σ) :=
  Prod.map Tally.ofOutcomes id <$> c.offerAll sink samples p

/-! ## Shards -/

/-- The samples of each worker: whole shards, as evenly as whole shards allow. -/
def workloads (c : Collector) (shards : List (List Sample)) : List (List Sample) :=
  (Delivery.split c.workers shards).map List.flatten

/-- What each worker sends. -/
def streams (c : Collector) (shards : List (List Sample)) : List (List (Logged Candidate)) :=
  (c.workloads shards).map fun samples => samples.map c.candidate

/-- The outcomes of shards whose candidates arrive in the order of `picks`. -/
def offerShards (c : Collector) (sink : Sink σ) (picks : List Nat)
    (shards : List (List Sample)) (p : Progress σ) : Logged (List Outcome × Progress σ) :=
  Candidate.offerAll sink (Delivery.deliver picks (c.streams shards)) p

/-- Collects shards. -/
def collectShards (c : Collector) (sink : Sink σ) (picks : List Nat)
    (shards : List (List Sample)) (p : Progress σ) : Logged (Tally × Progress σ) :=
  Prod.map Tally.ofOutcomes id <$> c.offerShards sink picks shards p

/-- One scrape: forgets the marks of the one before and collects shards. -/
def scrape (c : Collector) (sink : Sink σ) (picks : List Nat) (shards : List (List Sample))
    (p : Progress σ) : Logged (Tally × Progress σ) := do
  let (tally, p) ← c.collectShards sink picks shards { p with ledger := p.ledger.clear }
  Logged.report (.finished tally)
  pure (tally, p)

end Collector

end Scrape
