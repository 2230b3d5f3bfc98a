/-
Collectors on several threads.

Threads offer candidates to sinks of their own and share one ledger.  An offer
is made of at most three atomic steps: the check, the call of the sink with the
report of a refusal, and, after a refusal, the removal of the mark.  Between two
steps of one thread any other thread may take steps, so another copy of a sample
can find a mark whose own offer is still to be decided.
-/
import Scrape.Collector
import Scrape.Threads

namespace Scrape.Collector

/-- How far a thread is within an offer. -/
inductive Point where
  /-- Between offers. -/
  | idle
  /-- The candidate is marked and the sink is still to be called. -/
  | marked (candidate : Candidate)
  /-- The sink refused the candidate, whose mark is still to be removed. -/
  | refused (candidate : Candidate)
deriving DecidableEq, Repr

/-- A thread: the candidates it has yet to offer, its place within an offer, its sink, and the
outcomes of its offers, the latest first. -/
structure Thread (σ : Type) where
  candidates : List Candidate
  sink : Sink σ
  state : σ
  point : Point := .idle
  outcomes : List (Candidate × Outcome) := []

namespace Thread

variable {σ : Type}

/-- The thread between offers, with one more outcome. -/
def finish (t : Thread σ) (c : Candidate) (outcome : Outcome) : Thread σ :=
  { t with point := .idle, outcomes := (c, outcome) :: t.outcomes }

/-- The next step of a thread; there is none when it has made all its offers. -/
def step? (t : Thread σ) (l : Ledger) : Option (Logged (Thread σ × Ledger)) :=
  match t.point with
  | .marked c =>
    match t.sink.emit t.state c.emission with
    | (.ok (), state) => some (pure ({ t with state }.finish c .emitted, l))
    | (.error fault, state) => some do
      Logged.report (.refused c.emission.name fault)
      pure ({ t with state, point := .refused c }, l)
  | .refused c => some (pure (t.finish c .failed, l.unmark c.fingerprint))
  | .idle =>
    match t.candidates with
    | [] => none
    | c :: candidates => some do
      let (seen, l) ← l.check c.emission.name c.fingerprint
      if seen then
        pure ({ t with candidates }.finish c .duplicate, l)
      else
        pure ({ t with candidates, point := .marked c }, l)

end Thread

/-- A ledger and threads that make offers and share it. -/
abbrev Crew (σ : Type) := Team (Thread σ)

namespace Crew

variable {σ : Type}

/-- A step of one thread. -/
def step (w : Crew σ) (i : Nat) : Crew σ :=
  Team.step Thread.step? w i

/-- A run. -/
def run (w : Crew σ) (picks : List Nat) : Crew σ :=
  Team.run Thread.step? w picks

/-- Whether every thread has made all its offers. -/
def done (w : Crew σ) : Prop :=
  ∀ t ∈ w.threads, t.candidates = [] ∧ t.point = .idle

end Crew

end Scrape.Collector
