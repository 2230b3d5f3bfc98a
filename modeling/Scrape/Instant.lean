/-
Points in time.

An instant is an exact count of nanoseconds from the Unix epoch, as far in
either direction as one likes.  A fingerprint has only 64 signed bits for it;
`Instant.stamp` is the count brought into that range.
-/
import Scrape.SignedWord

namespace Scrape

/-- A point in time: its nanoseconds from the Unix epoch, negative before it. -/
structure Instant where
  nanos : Int
deriving DecidableEq, Repr

namespace Instant

/-- The instant in a signed word.  A distance that does not fit is taken to the end of the range
on its own side; the lower end itself is reached only so, its magnitude being one too large. -/
def stamp (t : Instant) : Int64 :=
  if 0 ≤ t.nanos then
    (SignedWord.ofNat? t.nanos.natAbs).getD Int64.maxValue
  else
    match SignedWord.ofNat? t.nanos.natAbs with
    | some d => -d
    | none => Int64.minValue

end Instant

end Scrape
