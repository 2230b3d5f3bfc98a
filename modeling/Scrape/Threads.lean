/-
Threads that share a ledger.

What a thread does, and in which steps, is left open here: a thread is
whatever has a next step at a ledger, or none.  A step is atomic, and between
two steps of one thread any other thread may take steps of its own.  A run is
given by a list of picks: each lets one thread take its next step.
-/
import Scrape.Ledger

namespace Scrape

/-- A ledger, the threads that share it, and what they have reported, the latest first. -/
structure Team (τ : Type) where
  ledger : Ledger
  threads : List τ
  reported : List Event := []
deriving DecidableEq, Repr

namespace Team

variable {τ : Type} (step? : τ → Ledger → Option (Logged (τ × Ledger)))

/-- A step of one thread.  Nothing happens if there is no such thread or it has no step left. -/
def step (w : Team τ) (i : Nat) : Team τ :=
  match w.threads[i]?.bind (step? · w.ledger) with
  | some x =>
    { ledger := x.value.2
      threads := w.threads.set i x.value.1
      reported := x.events.reverse ++ w.reported }
  | none => w

/-- A run. -/
def run (w : Team τ) (picks : List Nat) : Team τ :=
  picks.foldl (step step?) w

end Team

end Scrape
