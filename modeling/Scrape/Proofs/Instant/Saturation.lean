/-
Instants beyond the range of a signed word.

A stamp is an instant brought into the range of a signed word.  The range has one number
more below zero than above, and the instants on either side are converted apart, so the
lower end is reached by the way that is meant for what does not fit; no other instant
takes that way without need, and where a distance is negated it is never the one number
whose negation does not exist (`toInt_neg_of_ofNat?`).

What is lost is lost at the two ends only.  Stamps keep the order of instants, and two
instants share a stamp when both lie at one end or beyond it (`stamp_eq_iff`).  A
fingerprint takes eight bytes of the stamp and nothing else of the instant, so the same
holds of what it takes.
-/
import Scrape.Proofs.Fingerprint.Encoding

namespace Scrape

namespace SignedWord

/-- A distance that fits is not negative, so its negation fits as well. -/
theorem toInt_neg_of_ofNat? {n : Nat} {d : Int64} (h : ofNat? n = some d) :
    d.toInt = n ∧ (-d).toInt = -n := by
  rw [ofNat?] at h
  split at h
  next hle =>
    cases h
    have hlt : n < 2 ^ 63 := Nat.lt_succ_of_le hle
    exact ⟨Int64.toInt_ofNat_of_lt hlt, Int64.toInt_neg_ofNat_of_le (Nat.le_of_lt hlt)⟩
  next => exact nomatch h

end SignedWord

namespace Instant

/-- Both instants lie at the upper end of the range or beyond it, or both at the lower. -/
def SameEnd (t u : Instant) : Prop :=
  2 ^ 63 - 1 ≤ t.nanos ∧ 2 ^ 63 - 1 ≤ u.nanos ∨ t.nanos ≤ -2 ^ 63 ∧ u.nanos ≤ -2 ^ 63

theorem stamp_le_stamp {t u : Instant} (h : t.nanos ≤ u.nanos) : t.stamp ≤ u.stamp := by
  rw [Int64.le_iff_toInt_le, toInt_stamp, toInt_stamp]
  omega

/-- The stamps of two instants are one stamp at the ends of the range only. -/
theorem stamp_eq_iff {t u : Instant} : t.stamp = u.stamp ↔ t = u ∨ t.SameEnd u := by
  have hnanos : t = u ↔ t.nanos = u.nanos := by
    cases t
    cases u
    exact Instant.mk.injEq _ _ ▸ Iff.rfl
  rw [← Int64.toInt_inj, toInt_stamp, toInt_stamp, hnanos, SameEnd]
  omega

/-- The bytes of a time are those of its stamp. -/
theorem encoding_eq_iff_stamp (name : String) (keys values : List String) {t u : Instant} :
    Fingerprint.encoding name keys values (some t) =
      Fingerprint.encoding name keys values (some u) ↔ t.stamp = u.stamp := by
  rw [Fingerprint.encoding, Fingerprint.encoding, List.append_cancel_left_eq]
  constructor
  · intro h
    exact congrArg Int64.ofUInt64 (Fnv.wordBytes_inj h)
  · intro h
    exact congrArg (Fnv.wordBytes ·.toUInt64) h

/-- What is kept of an instant, and what is not. -/
structure Saturation (t : Instant) : Prop where
  /-- The stamp is the instant, or the end of the range that is nearest to it. -/
  clamped : t.stamp.toInt = max (-2 ^ 63) (min (2 ^ 63 - 1) t.nanos)
  /-- It is the instant itself from one end to the other, the ends included. -/
  exact : -2 ^ 63 ≤ t.nanos → t.nanos ≤ 2 ^ 63 - 1 → t.stamp.toInt = t.nanos
  /-- Before the epoch, a distance is negated without overflow, or does not fit and its
  instant has the lower end. -/
  negated : t.nanos < 0 →
    (∃ d, SignedWord.ofNat? t.nanos.natAbs = some d ∧ t.stamp = -d ∧ (-d).toInt = -d.toInt) ∨
      (SignedWord.ofNat? t.nanos.natAbs = none ∧ t.nanos ≤ -2 ^ 63 ∧ t.stamp = Int64.minValue)
  monotone : ∀ u : Instant, t.nanos ≤ u.nanos → t.stamp ≤ u.stamp
  /-- Another instant has the same stamp exactly when both lie at or beyond the same end. -/
  shared : ∀ u : Instant, t ≠ u → (t.stamp = u.stamp ↔ t.SameEnd u)
  /-- And only then it gives the same bytes to a fingerprint, which is the hash of its bytes. -/
  folded : ∀ (name : String) (keys values : List String),
    Fingerprint.of name keys values (some t) =
      Fnv.hash (Fingerprint.encoding name keys values (some t)) ∧
    ∀ u : Instant, t ≠ u →
      (Fingerprint.encoding name keys values (some t) =
        Fingerprint.encoding name keys values (some u) ↔ t.SameEnd u)

/-- A stamp is exact within the range of a signed word and saturates at its two ends. -/
theorem saturation_stamp (t : Instant) : t.Saturation where
  clamped := t.toInt_stamp
  exact := fun hlow hhigh => toInt_stamp_of_fits ⟨hlow, Int.lt_of_le_sub_one hhigh⟩
  negated := by
    intro hneg
    rw [stamp, if_neg (Int.not_le.mpr hneg)]
    cases hd : SignedWord.ofNat? t.nanos.natAbs with
    | some d =>
        obtain ⟨hpos, hminus⟩ := SignedWord.toInt_neg_of_ofNat? hd
        exact .inl ⟨d, rfl, rfl, by rw [hminus, hpos]⟩
    | none =>
        refine .inr ⟨rfl, ?_, rfl⟩
        have hlarge : SignedWord.largest < t.nanos.natAbs := by
          refine Nat.not_le.mp fun hle => ?_
          rw [SignedWord.ofNat?_of_le hle] at hd
          cases hd
        unfold SignedWord.largest at hlarge
        omega
  monotone := fun _ => stamp_le_stamp
  shared := by
    intro u hne
    rw [stamp_eq_iff, or_iff_right hne]
  folded := by
    intro name keys values
    refine ⟨Fingerprint.of_eq_hash name keys values (some t), fun u hne => ?_⟩
    rw [encoding_eq_iff_stamp, stamp_eq_iff, or_iff_right hne]

/-- Both ends of the range are exact, and what lies beyond them is not. -/
example : (Instant.mk (-2 ^ 63)).stamp.toInt = -2 ^ 63 ∧ (Instant.mk (2 ^ 63 - 1)).stamp.toInt =
    2 ^ 63 - 1 ∧ (Instant.mk (-2 ^ 63 - 1)).stamp = (Instant.mk (-2 ^ 63)).stamp := by
  decide

end Instant

end Scrape
