/-
The registry of exported metrics.

A collector is a group of metrics that is registered as one.  Registration
looks at its metrics in order and stops at the first that is taken or that
disagrees with an earlier metric of its name; then no metric of the group is
added.  What is remembered of names survives a failed registration.

Registered metrics are read when the registry is exposed, not before: a metric
holds the source of its value, of any type `ι`, and who exposes the registry
says what the sources are worth at that moment.
-/
import Scrape.Metrics.Descriptor

namespace Scrape.Metrics

/-- Whether a metric only grows. -/
inductive Kind where
  | counter
  | gauge
deriving DecidableEq, Repr

/-- A metric: its descriptor, its kind and the source of its value. -/
structure Metric (ι : Type) where
  descriptor : Descriptor
  kind : Kind
  source : ι
deriving DecidableEq, Repr

/-- Metrics that were registered, and what is remembered of names. -/
structure Registry (ι : Type) where
  /-- The identities of the registered metrics. -/
  taken : List UInt64
  /-- Every name that was ever offered, with what its metrics must agree on. -/
  dimensions : List (String × UInt64)
  /-- The registered collectors with their identities. -/
  collectors : List (UInt64 × List (Metric ι))
deriving Repr

namespace Registry

variable {ι : Type}

/-- The registry without metrics. -/
def empty : Registry ι := ⟨[], [], []⟩

instance : Inhabited (Registry ι) := ⟨empty⟩

/-- Examines the metrics of a collector, given the identities of those before, and collects their
identities. -/
def examine (seen : List UInt64) :
    List (Metric ι) → Registry ι → Except Fault (List UInt64) × Registry ι
  | [], r => (.ok seen, r)
  | m :: ms, r =>
    let d := m.descriptor
    if d.id ∈ r.taken then (.error .alreadyRegistered, r)
    else if (r.dimensions.lookup d.name).any (· != d.dimension) then
      (.error (.inconsistent d), r)
    else
      let r := { r with dimensions := (d.name, d.dimension) :: r.dimensions }
      if d.id ∈ seen then (.error (.repeated d), r)
      else r.examine (d.id :: seen) ms

/-- The identity of a collector: the sum of those of its metrics. -/
def identity (ids : List UInt64) : UInt64 :=
  ids.foldl (· + ·) 0

/-- Registers a group of metrics as one collector. -/
def register (r : Registry ι) (ms : List (Metric ι)) : Except Fault Unit × Registry ι :=
  match r.examine [] ms with
  | (.error fault, r) => (.error fault, r)
  | (.ok ids, r) =>
    if identity ids ∈ r.collectors.map (·.1) then (.error .alreadyRegistered, r)
    else (.ok (), { r with
      taken := ids ++ r.taken
      collectors := r.collectors ++ [(identity ids, ms)] })

/-- Registers each metric of a list as a collector of its own, up to the first that fails.  Those
before it stay registered. -/
def registerEach : List (Metric ι) → Registry ι → Except Fault Unit × Registry ι
  | [], r => (.ok (), r)
  | m :: ms, r =>
    match r.register [m] with
    | (.ok (), r) => r.registerEach ms
    | (.error fault, r) => (.error fault, r)

/-- All registered metrics in the order of their names. -/
def metrics (r : Registry ι) : List (Metric ι) :=
  (r.collectors.flatMap (·.2)).mergeSort fun a b => Utf8.le a.descriptor.name b.descriptor.name

end Registry

end Scrape.Metrics
