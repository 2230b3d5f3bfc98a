/-
The signed word of an instant.

An instant is exact and its word has 64 bits, so the word says which instant it
is of only where the count fits.  `toInt_stamp` says what it is of everywhere:
the count itself, brought to the nearer end of the range where it lies outside.
The lower end is the one place where the two sides of the definition differ,
since its magnitude is no signed word; it comes out right all the same.
-/
import Mathlib.Algebra.Group.Int.Defs
import Mathlib.Algebra.Group.Nat.Defs
import Scrape.Instant

namespace Scrape

namespace SignedWord

theorem ofNat?_of_le {n : Nat} (h : n ≤ largest) : ofNat? n = some (Int64.ofNat n) :=
  if_pos h

theorem ofNat?_of_lt {n : Nat} (h : largest < n) : ofNat? n = none :=
  if_neg (Nat.not_le.mpr h)

end SignedWord

namespace Instant

/-- The nanoseconds are a signed word. -/
def Fits (t : Instant) : Prop :=
  -2 ^ 63 ≤ t.nanos ∧ t.nanos < 2 ^ 63

theorem toInt_stamp (t : Instant) :
    t.stamp.toInt = max (-2 ^ 63) (min (2 ^ 63 - 1) t.nanos) := by
  rw [stamp]
  by_cases h0 : 0 ≤ t.nanos
  · rw [if_pos h0]
    by_cases hle : t.nanos.natAbs ≤ SignedWord.largest
    · have hlt : t.nanos.natAbs < 2 ^ 63 := by
        unfold SignedWord.largest at hle
        omega
      rw [SignedWord.ofNat?_of_le hle, Option.getD_some, Int64.toInt_ofNat_of_lt hlt]
      omega
    · rw [SignedWord.ofNat?_of_lt (Nat.not_le.mp hle), Option.getD_none, Int64.toInt_maxValue]
      unfold SignedWord.largest at hle
      omega
  · rw [if_neg h0]
    by_cases hle : t.nanos.natAbs ≤ SignedWord.largest
    · have hlt : t.nanos.natAbs ≤ 2 ^ 63 := by
        unfold SignedWord.largest at hle
        omega
      rw [SignedWord.ofNat?_of_le hle]
      show (-Int64.ofNat t.nanos.natAbs).toInt = _
      rw [Int64.toInt_neg_ofNat_of_le hlt]
      omega
    · rw [SignedWord.ofNat?_of_lt (Nat.not_le.mp hle)]
      show Int64.minValue.toInt = _
      rw [Int64.toInt_minValue]
      unfold SignedWord.largest at hle
      omega

theorem toInt_stamp_of_fits {t : Instant} (h : t.Fits) : t.stamp.toInt = t.nanos := by
  obtain ⟨hlow, hhigh⟩ := h
  rw [toInt_stamp]
  omega

/-- Without its sign the word is the count in two's complement. -/
theorem toNat_toUInt64_stamp (t : Instant) :
    (t.stamp.toUInt64.toNat : ℤ) = max (-2 ^ 63) (min (2 ^ 63 - 1) t.nanos) % 2 ^ 64 := by
  have hlt := t.stamp.toUInt64.toNat_lt
  rw [← toInt_stamp, ← Int64.toInt_toBitVec, BitVec.toInt_eq_toNat_cond, Int64.toNat_toBitVec]
  split
  · omega
  · omega

/-- Where instants fit, the word tells them apart. -/
theorem stamp_inj {t u : Instant} (ht : t.Fits) (hu : u.Fits) (h : t.stamp = u.stamp) :
    t = u := by
  cases t with
  | mk n =>
      cases u with
      | mk m =>
          have hnanos := congrArg Int64.toInt h
          rw [toInt_stamp_of_fits ht, toInt_stamp_of_fits hu] at hnanos
          exact congrArg Instant.mk hnanos

end Instant

end Scrape
