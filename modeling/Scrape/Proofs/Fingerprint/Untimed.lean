/-
Times that read like labels.

A sample with a time and a sample without one should not be taken for each
other.  Their encodings are laid out alike, and only the first goes on with the
eight bytes of the time, which carry no mark of their own.  So the second has
the same encoding if its labels go on where those of the first end, and what
they go on with is spelled by these eight bytes (`timed_eq_untimed_iff`).

This needs luck, or malice.  Labels end with a separator, so the last byte of
the time has to be `0xFF`, and it is the highest byte of the word: the time lies
before the epoch, by `2 ^ 56` nanoseconds at most, which is a little more than
two years.  Any other time keeps a sample apart from all samples without one.
Within these two years it does not: `exists_timed_eq_untimed` has an instant
whose bytes are those of the label `zone="eu"`.
-/
import Scrape.Proofs.Fingerprint.Encoding

namespace Scrape

/-! ## The highest byte of a word -/

theorem Fnv.le_toNat_of_wordBytes {w : UInt64} {p : List UInt8}
    (h : wordBytes w = p ++ [separator]) : 2 ^ 64 - 2 ^ 56 ≤ w.toNat := by
  have hsplit : wordBytes w = (wordBytes w).take 7 ++ [(w >>> 56).toUInt8] := rfl
  obtain ⟨-, hlast⟩ := List.append_inj' (hsplit.symm.trans h) rfl
  have hbyte := congrArg UInt8.toNat (List.cons.inj hlast).1
  simp only [UInt64.toNat_toUInt8, UInt64.toNat_shiftRight, UInt64.reduceToNat, Nat.reduceMod,
    Nat.shiftRight_eq_div_pow, separator, UInt8.reduceToNat] at hbyte
  have := w.toNat_lt
  omega

namespace Instant

/-- A word whose highest byte is `0xFF` stands for a small negative number. -/
theorem nanos_of_le_toUInt64 {t : Instant} (h : 2 ^ 64 - 2 ^ 56 ≤ t.stamp.toUInt64.toNat) :
    -2 ^ 56 ≤ t.nanos ∧ t.nanos < 0 := by
  have hword := t.toNat_toUInt64_stamp
  omega

end Instant

namespace Fingerprint

/-! ## Times that labels spell -/

/-- Labels end with the end of their last value. -/
theorem exists_labelBytes_eq {labels : List (String × String)} (h : labels ≠ []) :
    ∃ p, labelBytes labels = p ++ [Fnv.separator] := by
  obtain ⟨front, last, rfl⟩ := List.eq_nil_or_concat' labels |>.resolve_left h
  refine ⟨labelBytes front ++ (field last.1 ++ Utf8.encode last.2), ?_⟩
  rw [labelBytes_append, labelBytes_cons]
  simp only [field, labelBytes, List.flatMap_nil, List.append_nil, List.append_assoc]

theorem nanos_of_labelBytes_eq {labels : List (String × String)} {t : Instant}
    (h : labelBytes labels = timeBytes (some t)) : -2 ^ 56 ≤ t.nanos ∧ t.nanos < 0 := by
  cases labels with
  | nil => exact nomatch h
  | cons p labels =>
      obtain ⟨front, hfront⟩ := exists_labelBytes_eq (List.cons_ne_nil p labels)
      exact Instant.nanos_of_le_toUInt64 (Fnv.le_toNat_of_wordBytes (h.symm.trans hfront))

/-! ## With a time and without -/

/-- A name and labels with a time have the encoding of a name and labels without
one exactly when the names are the same and the sorted labels without time are the
others and then labels that the bytes of the time spell.  Then the fingerprints are
the same as well; and only times just before the epoch spell labels. -/
theorem timed_eq_untimed_iff (name name' : String) (keys values keys' values' : List String)
    (t : Instant) :
    of name keys values (some t) = Fnv.hash (encoding name keys values (some t)) ∧
    of name' keys' values' none = Fnv.hash (encoding name' keys' values' none) ∧
    (encoding name keys values (some t) = encoding name' keys' values' none ↔
      name = name' ∧ ∃ more, labelBytes more = timeBytes (some t) ∧
        Labels.sorted (pairs keys' values') = Labels.sorted (pairs keys values) ++ more) ∧
    (encoding name keys values (some t) = encoding name' keys' values' none →
      -2 ^ 56 ≤ t.nanos ∧ t.nanos < 0) := by
  have hiff : encoding name keys values (some t) = encoding name' keys' values' none ↔
      name = name' ∧ ∃ more, labelBytes more = timeBytes (some t) ∧
        Labels.sorted (pairs keys' values') = Labels.sorted (pairs keys values) ++ more := by
    rw [encoding, encoding, timeBytes.eq_2, List.append_nil, List.append_assoc,
      ← labelBytes_append_eq_iff]
    constructor
    · exact field_append_inj
    · rintro ⟨rfl, h⟩
      rw [h]
  refine ⟨of_eq_hash _ _ _ _, of_eq_hash _ _ _ _, hiff, ?_⟩
  intro h
  obtain ⟨-, more, hmore, -⟩ := hiff.mp h
  exact nanos_of_labelBytes_eq hmore

/-- In 1968 there was a nanosecond that reads `zone="eu"`. -/
theorem exists_timed_eq_untimed :
    ¬ ∀ (name name' : String) (s s' : Labels) (t : Instant), s.WellFormed → s'.WellFormed →
      encoding name s.keys s.values (some t) ≠ encoding name' s'.keys s'.values none := by
  intro h
  refine h "up" "up" .empty ⟨["zone"], ["eu"]⟩ ⟨-39012874169979014⟩ Labels.empty_wellFormed
    ⟨List.nodup_singleton "zone", rfl⟩ ?_
  decide +kernel

end Fingerprint

end Scrape
