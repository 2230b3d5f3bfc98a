/-
A ledger that threads share.

Each thread has calls to make, one after another.  A check is made in its
three steps; unmarking and clearing are one step each.
-/
import Scrape.Threads

namespace Scrape.Ledger

/-- A call of a thread.  The name in a check is for the report only. -/
inductive Call where
  | check (name : String) (fingerprint : UInt64)
  | unmark (fingerprint : UInt64)
  | clear
deriving DecidableEq, Repr

/-- How far a thread is within a call. -/
inductive Point where
  /-- Between calls. -/
  | idle
  /-- The check is counted. -/
  | counted (name : String) (fingerprint : UInt64)
  /-- The mark was found. -/
  | found (name : String) (fingerprint : UInt64)
deriving DecidableEq, Repr

/-- A thread: the calls it has yet to begin, its place within a call, and what its checks said, the
latest first. -/
structure Thread where
  calls : List Call
  point : Point := .idle
  answers : List Bool := []
deriving DecidableEq, Repr

/-- The next step of a thread; there is none when it has made all its calls. -/
def Thread.step? (t : Thread) (l : Ledger) : Option (Logged (Thread × Ledger)) :=
  match t.point with
  | .counted name fingerprint =>
    match l.mark fingerprint with
    | (true, l) =>
      some (pure ({ t with point := .found name fingerprint, answers := true :: t.answers }, l))
    | (false, l) => some (pure ({ t with point := .idle, answers := false :: t.answers }, l))
  | .found name fingerprint =>
    some (({ t with point := .idle }, ·) <$> l.noteDuplicate name fingerprint)
  | .idle =>
    match t.calls with
    | [] => none
    | .check name fingerprint :: calls =>
      some (pure ({ t with calls, point := .counted name fingerprint }, l.countCheck))
    | .unmark fingerprint :: calls => some (pure ({ t with calls }, l.unmark fingerprint))
    | .clear :: calls => some (pure ({ t with calls }, l.clear))

/-- A ledger and threads that make calls to it. -/
abbrev Shared := Team Thread

namespace Shared

/-- A ledger and threads that have made no call yet. -/
def start (l : Ledger) (programs : List (List Call)) : Shared :=
  { ledger := l, threads := programs.map fun calls => { calls } }

/-- A step of one thread. -/
def step (s : Shared) (i : Nat) : Shared :=
  Team.step Thread.step? s i

/-- A run. -/
def run (s : Shared) (picks : List Nat) : Shared :=
  Team.run Thread.step? s picks

/-- Picks that let every thread make its calls one thread after another.  No call has more than
three steps. -/
def inTurn (s : Shared) : List Nat :=
  s.threads.zipIdx.flatMap fun (t, i) => List.replicate (3 * t.calls.length + 2) i

/-- What the threads have reported, in the order of the reports. -/
def events (s : Shared) : List Event :=
  s.reported.reverse

/-- How many checks have found a mark. -/
def found (s : Shared) : Nat :=
  (s.threads.flatMap (·.answers)).count true

end Shared

end Scrape.Ledger
