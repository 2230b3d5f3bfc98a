/-
The ledger of a scrape.

The ledger marks the fingerprints of the samples that were seen since the last
clearing, and counts for as long as it lives how often it was asked and how often
the answer was that a sample had been seen before.  A gauge shows the number of
marks; it is set together with the marks, so it never shows anything else.

A check is made of three steps, each of which is atomic when the ledger is
shared: count the check, look the mark up and set it, count and report the
duplicate.
-/
import Scrape.Event
import Scrape.Fingerprint
import Scrape.SignedWord

namespace Scrape

/-- Marks and counters. -/
structure Ledger where
  /-- The marked fingerprints, the latest first. -/
  marks : List UInt64
  /-- How many checks there were. -/
  checks : UInt64
  /-- How many checks found a mark. -/
  duplicates : UInt64
  /-- The number of marks as it is shown. -/
  unique : Int64
deriving DecidableEq, Repr

namespace Ledger

/-- The ledger without marks. -/
def empty : Ledger := ⟨[], 0, 0, 0⟩

instance : Inhabited Ledger := ⟨empty⟩

/-- How many fingerprints are marked. -/
def size (l : Ledger) : Nat := l.marks.length

/-- Whether no fingerprint is marked. -/
def isEmpty (l : Ledger) : Bool := l.size == 0

/-- A number of marks as a signed word, at most the largest one. -/
def shown (n : Nat) : Int64 :=
  (SignedWord.ofNat? n).getD Int64.maxValue

/-- The ledger with other marks, which the gauge then shows. -/
def withMarks (l : Ledger) (marks : List UInt64) : Ledger :=
  { l with marks, unique := shown marks.length }

/-! ## The steps of a check -/

/-- Counts a check. -/
def countCheck (l : Ledger) : Ledger :=
  { l with checks := l.checks + 1 }

/-- Says whether a fingerprint is marked, and marks it if it is not. -/
def mark (l : Ledger) (fingerprint : UInt64) : Bool × Ledger :=
  if fingerprint ∈ l.marks then (true, l)
  else (false, l.withMarks (fingerprint :: l.marks))

/-- Counts a duplicate. -/
def countDuplicate (l : Ledger) : Ledger :=
  { l with duplicates := l.duplicates + 1 }

/-- Counts a duplicate and reports it. -/
def noteDuplicate (l : Ledger) (name : String) (fingerprint : UInt64) : Logged Ledger := do
  Logged.report (.duplicate name fingerprint)
  pure l.countDuplicate

/-! ## Operations -/

/-- Marks a fingerprint and says whether it was marked before.  The name of the sample is for the
report only. -/
def check (l : Ledger) (name : String) (fingerprint : UInt64) : Logged (Bool × Ledger) :=
  match l.countCheck.mark fingerprint with
  | (true, l) => (true, ·) <$> l.noteDuplicate name fingerprint
  | (false, l) => pure (false, l)

/-- Takes a mark away, if it is there. -/
def unmark (l : Ledger) (fingerprint : UInt64) : Ledger :=
  l.withMarks (l.marks.erase fingerprint)

/-- Marks the fingerprint of a name, labels in two columns and a time. -/
def checkLabels (l : Ledger) (name : String) (keys values : List String)
    (time : Option Instant) : Logged (Bool × Ledger) :=
  l.check name (Fingerprint.of name keys values time)

/-- Takes the mark of a name, labels in two columns and a time away, if it is there. -/
def unmarkLabels (l : Ledger) (name : String) (keys values : List String)
    (time : Option Instant) : Ledger :=
  l.unmark (Fingerprint.of name keys values time)

/-- Takes all marks away.  The counters go on. -/
def clear (l : Ledger) : Ledger :=
  l.withMarks []

/-- The counters and the gauge, as they are at one time. -/
structure Stats where
  checks : UInt64
  duplicates : UInt64
  unique : Int64
deriving DecidableEq, Repr

/-- The stats of a ledger. -/
def stats (l : Ledger) : Stats :=
  { checks := l.checks, duplicates := l.duplicates, unique := l.unique }

/-- The stats in one line. -/
def summary (l : Ledger) : String :=
  "Deduplicator \x7b stats: DeduplicatorStats \x7b checks: " ++ toString l.stats.checks.toNat ++
    ", duplicates: " ++ toString l.stats.duplicates.toNat ++
    ", unique: " ++ toString l.stats.unique.toInt ++ " \x7d, .. \x7d"

/-! ## What a check does -/

theorem mark_of_mem {l : Ledger} {fingerprint : UInt64} (h : fingerprint ∈ l.marks) :
    l.mark fingerprint = (true, l) := by
  simp [mark, h]

theorem mark_of_not_mem {l : Ledger} {fingerprint : UInt64} (h : fingerprint ∉ l.marks) :
    l.mark fingerprint = (false, l.withMarks (fingerprint :: l.marks)) := by
  simp [mark, h]

/-- A check of a marked fingerprint changes the counters only. -/
theorem check_of_mem {l : Ledger} {fingerprint : UInt64} (name : String)
    (h : fingerprint ∈ l.marks) :
    l.check name fingerprint =
      ⟨(true, l.countCheck.countDuplicate), [.duplicate name fingerprint]⟩ := by
  have hm : l.countCheck.mark fingerprint = (true, l.countCheck) := mark_of_mem h
  rw [check, hm]
  rfl

/-- A check of a new fingerprint marks it. -/
theorem check_of_not_mem {l : Ledger} {fingerprint : UInt64} (name : String)
    (h : fingerprint ∉ l.marks) :
    l.check name fingerprint =
      ⟨(false, l.countCheck.withMarks (fingerprint :: l.marks)), []⟩ := by
  have hm := mark_of_not_mem (show fingerprint ∉ l.countCheck.marks from h)
  rw [check, hm]
  rfl

end Ledger

end Scrape
