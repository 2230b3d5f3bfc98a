/-
Shards on their way to the sink.

Shards are collected by workers and the caller together.  A worker goes through
its shards, puts the labels of one sample after another together and sends what
it has prepared into a channel that all workers share.  The caller takes out of
the channel what was sent first and offers it, until the workers have sent
everything and the channel is empty.  Nobody waits for anybody but the caller
for the channel, so the turns of workers and caller mix in any way; a run is
given by the list of these turns.
-/
import Scrape.Collector

namespace Scrape.Collector

/-- Who is next. -/
inductive Turn where
  /-- A worker prepares its next sample and sends it. -/
  | send (worker : Nat)
  /-- The caller takes a candidate out of the channel and offers it. -/
  | receive
deriving DecidableEq, Repr

/-- Shards that are being collected. -/
structure Pipeline (σ : Type) where
  /-- The samples that each worker has yet to send. -/
  loads : List (List Sample)
  /-- What was sent and not yet offered, the oldest first. -/
  channel : List Candidate := []
  progress : Progress σ
  /-- The outcomes of what was offered, the latest first. -/
  outcomes : List Outcome := []
  /-- What workers and caller have reported, the latest first. -/
  reported : List Event := []

namespace Pipeline

variable {σ : Type}

/-- Shards of which nothing is sent yet. -/
def start (c : Collector) (shards : List (List Sample)) (p : Progress σ) : Pipeline σ :=
  { loads := c.workloads shards, progress := p }

/-- A turn.  Nothing happens if there is no such worker, if it has sent all it had, or if the
channel is empty. -/
def step (c : Collector) (sink : Sink σ) (w : Pipeline σ) : Turn → Pipeline σ
  | .send i =>
    match w.loads[i]? with
    | some (s :: rest) =>
      let x := c.candidate s
      { w with
        loads := w.loads.set i rest
        channel := w.channel ++ [x.value]
        reported := x.events.reverse ++ w.reported }
    | _ => w
  | .receive =>
    match w.channel with
    | d :: channel =>
      let x := d.offer sink w.progress
      { w with
        channel
        progress := x.value.2
        outcomes := x.value.1 :: w.outcomes
        reported := x.events.reverse ++ w.reported }
    | [] => w

/-- A run. -/
def run (c : Collector) (sink : Sink σ) (w : Pipeline σ) (turns : List Turn) : Pipeline σ :=
  turns.foldl (step c sink) w

/-- Whether all samples were sent and all that was sent was offered. -/
def done (w : Pipeline σ) : Prop :=
  (∀ load ∈ w.loads, load = []) ∧ w.channel = []

/-- What the caller is told in the end. -/
def result (w : Pipeline σ) : Tally × Progress σ :=
  (Tally.ofOutcomes w.outcomes.reverse, w.progress)

end Pipeline

end Scrape.Collector
