/-
Fingerprints of samples.

A fingerprint is the FNV-1a hash of a name, labels and a time.  Labels are
folded in the order of their keys, whatever order they came in, and every
field ends with the byte `0xFF`, which no text contains.
-/
import Scrape.Fnv
import Scrape.Instant
import Scrape.Utf8

namespace Scrape.Fingerprint

/-- Folds a text and the end of its field. -/
def foldField (h : UInt64) (s : String) : UInt64 :=
  Fnv.step (Fnv.fold h (Utf8.encode s)) Fnv.separator

/-- The keys with the rows they stand in, in the order of the keys.  Equal keys keep the order of
their rows. -/
def rows (keys : List String) : List (String × Nat) :=
  keys.zipIdx.mergeSort fun a b => Utf8.le a.1 b.1

/-- Folds a key and the value of its row.  A row beyond the values has an empty value. -/
def foldRow (values : List String) (h : UInt64) (row : String × Nat) : UInt64 :=
  match values[row.2]? with
  | some value => foldField (foldField h row.1) value
  | none => Fnv.step (foldField h row.1) Fnv.separator

/-- Folds the time, if there is one, as the eight bytes of its signed word. -/
def foldTime (h : UInt64) : Option Instant → UInt64
  | some t => Fnv.foldWord h t.stamp.toUInt64
  | none => h

/-- The fingerprint of a name, labels in two columns and a time. -/
def of (name : String) (keys values : List String) (time : Option Instant) : UInt64 :=
  foldTime ((rows keys).foldl (foldRow values) (foldField Fnv.offsetBasis name)) time

/-- The fingerprint of a name and labels alone. -/
def ofLabels (name : String) (keys values : List String) : UInt64 :=
  of name keys values none

end Scrape.Fingerprint
