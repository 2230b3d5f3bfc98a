/-
Natural numbers as signed words.

A signed word of 64 bits holds the natural numbers below `2 ^ 63`.
-/

namespace Scrape.SignedWord

/-- The largest natural number that a signed word can hold, `2 ^ 63 - 1`. -/
def largest : Nat := 0x7FFFFFFFFFFFFFFF

/-- A natural number as a signed word, if it fits. -/
def ofNat? (n : Nat) : Option Int64 :=
  if n ≤ largest then some (Int64.ofNat n) else none

end Scrape.SignedWord
