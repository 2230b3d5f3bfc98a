/-
The metrics of a ledger.

Three metrics show a ledger to the outside: its two counters and its gauge.
They share a namespace and a subsystem, from which their names are built.
-/
import Scrape.Ledger
import Scrape.Metrics.Registry

namespace Scrape

/-- The parts of a name that the metrics of a ledger share. -/
structure ExportNames where
  space : String := "stackdriver"
  subsystem : String := "deduplicator"
deriving DecidableEq, Repr

namespace Ledger

/-- What can be read off a ledger. -/
inductive Reading where
  | checks
  | duplicates
  | unique
deriving DecidableEq, Repr

/-- The number that a reading shows. -/
def read (l : Ledger) : Reading → Int
  | .checks => l.checks.toNat
  | .duplicates => l.duplicates.toNat
  | .unique => l.unique.toInt

/-- The descriptors of the three metrics. -/
structure Exports where
  checks : Metrics.Descriptor
  duplicates : Metrics.Descriptor
  unique : Metrics.Descriptor
deriving DecidableEq, Repr

namespace Exports

/-- The descriptors for a choice of names.  The first name that is no metric name is the fault. -/
def create (names : ExportNames) : Except Metrics.Fault Exports := do
  let describe (name help : String) :=
    Metrics.Descriptor.create (Metrics.Descriptor.fullName names.space names.subsystem name) help
  let checks ← describe "checks_total" "Total number of deduplication checks performed."
  let duplicates ←
    describe "duplicates_total" "Total number of duplicate metrics detected and dropped."
  let unique ← describe "unique_metrics" "Current number of unique metrics being tracked."
  pure { checks, duplicates, unique }

/-- The three metrics.  The source of a value is a reading of some ledger, which `source` names. -/
def metrics {ι : Type} (e : Exports) (source : Reading → ι) : List (Metrics.Metric ι) :=
  [⟨e.checks, .counter, source .checks⟩,
    ⟨e.duplicates, .counter, source .duplicates⟩,
    ⟨e.unique, .gauge, source .unique⟩]

end Exports

end Ledger

end Scrape
