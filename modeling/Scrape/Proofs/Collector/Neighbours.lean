/-
Samples that almost agree.

Two runs of bytes that differ inside four consecutive bytes only are never hashed to
the same state (`Fnv.Neighbours.fold_ne`).  Fingerprints are hashes of encodings, so
samples whose encodings are neighbours in this sense have different fingerprints, and
neither of them can take the place of the other.

The bytes at the end of an encoding are those of the time.  A series that is measured
at two times near each other, such as times whose stamps agree in their upper half,
therefore stays two samples.  It is the stamps that have to differ, not only the times:
beyond the range of a signed word all times have one stamp, and there the second sample
is dropped (`exists_dropped_remeasured`).
-/
import Scrape.Proofs.Collector.Series
import Scrape.Proofs.Fnv

namespace Scrape

variable {σ : Type}

/-! ## Times near each other -/

namespace Fnv

theorem Neighbours.append_left {m m' : List UInt8} (h : Neighbours m m') (p : List UInt8) :
    Neighbours (p ++ m) (p ++ m') where
  ne := fun heq => h.ne (List.append_cancel_left heq)
  length_eq := by rw [List.length_append, List.length_append, h.length_eq]
  window := by
    obtain ⟨k, hk⟩ := h.window
    refine ⟨p.length + k, fun i hi => ?_⟩
    by_cases hlt : i < p.length
    · rw [List.getElem?_append_left hlt, List.getElem?_append_left hlt]
    · rw [List.getElem?_append_right (Nat.not_lt.mp hlt),
        List.getElem?_append_right (Nat.not_lt.mp hlt)]
      refine hk _ ?_
      omega

theorem neighbours_of_upper_eq {w w' : UInt64} (hne : w ≠ w') (h : w >>> 32 = w' >>> 32) :
    Neighbours (wordBytes w) (wordBytes w') where
  ne := fun heq => hne (wordBytes_inj heq)
  length_eq := rfl
  window := by
    have hupper : w.toNat / 256 ^ 4 = w'.toNat / 256 ^ 4 := by
      have hnat := congrArg UInt64.toNat h
      simpa only [UInt64.toNat_shiftRight, UInt64.reduceToNat, Nat.reduceMod,
        Nat.shiftRight_eq_div_pow, Nat.reducePow] using hnat
    refine ⟨0, fun i hi => ?_⟩
    rw [wordBytes_eq_octets, wordBytes_eq_octets]
    refine getElem?_octets_of_div_eq hupper ?_
    omega

end Fnv

namespace Instant

/-- The stamps of two instants differ, but in their lower half only, or only in some
four adjacent bytes. -/
structure Near (t t' : Instant) : Prop where
  ne : t.stamp ≠ t'.stamp
  window : t.stamp.toUInt64 >>> 32 = t'.stamp.toUInt64 >>> 32 ∨
    ∃ k, ∀ i, i < k ∨ k + 4 ≤ i →
      (Fnv.wordBytes t.stamp.toUInt64)[i]? = (Fnv.wordBytes t'.stamp.toUInt64)[i]?

theorem Near.neighbours {t t' : Instant} (h : t.Near t') :
    Fnv.Neighbours (Fnv.wordBytes t.stamp.toUInt64) (Fnv.wordBytes t'.stamp.toUInt64) := by
  have hne : t.stamp.toUInt64 ≠ t'.stamp.toUInt64 :=
    fun heq => h.ne (congrArg Int64.ofUInt64 heq)
  rcases h.window with hupper | hwindow
  · exact Fnv.neighbours_of_upper_eq hne hupper
  · exact ⟨fun heq => hne (Fnv.wordBytes_inj heq), rfl, hwindow⟩

end Instant

/-! ## Fingerprints of neighbours -/

namespace Fingerprint

theorem of_ne_of_neighbours {name name' : String} {keys values keys' values' : List String}
    {time time' : Option Instant}
    (h : Fnv.Neighbours (encoding name keys values time) (encoding name' keys' values' time')) :
    of name keys values time ≠ of name' keys' values' time' := by
  rw [of_eq_hash, of_eq_hash]
  exact h.fold_ne Fnv.offsetBasis

/-- One name and one map of labels at two times near each other have neighbouring encodings. -/
theorem encoding_neighbours (name : String) {s s' : Labels} {t t' : Instant}
    (hs : s.WellFormed) (hs' : s'.WellFormed) (hlabels : ∀ key, s.get? key = s'.get? key)
    (hnear : t.Near t') :
    Fnv.Neighbours (encoding name s.keys s.values (some t))
      (encoding name s'.keys s'.values (some t')) := by
  rw [encoding, encoding, pairs_eq_toList hs, pairs_eq_toList hs',
    (Labels.sorted_toList_eq_iff hs hs').mpr hlabels]
  exact hnear.neighbours.append_left _

end Fingerprint

/-! ## Samples that do not stand for each other -/

namespace Offer

/-- What is dropped was marked, and what was marked is dropped. -/
theorem outcome_make_eq_duplicate_iff (o : Offer σ) (p : Progress σ) :
    (o.make p).outcome = .duplicate ↔ o.candidate.fingerprint ∈ p.ledger.marks := by
  obtain ⟨ho, hm, -⟩ | ⟨ho, hm, -⟩ | ⟨ho, hm, -⟩ := make_cases o p
  · exact iff_of_true ho hm
  · exact iff_of_false (by simp [ho]) hm
  · exact iff_of_false (by simp [ho]) hm

/-- An offer leaves no mark that another fingerprint could find. -/
theorem duplicate_after_iff {a b : Offer σ} (p : Progress σ)
    (hne : a.candidate.fingerprint ≠ b.candidate.fingerprint) :
    (b.make (a.make p).after).outcome = .duplicate ↔
      b.candidate.fingerprint ∈ p.ledger.marks := by
  rw [outcome_make_eq_duplicate_iff, mem_marks_make]
  exact or_iff_left fun h => hne h.2.symm

end Offer

namespace Collector

/-- Two samples of which neither stands for the other. -/
structure Apart (c c' : Collector) (s s' : Sample) : Prop where
  fingerprint_ne : (c.candidate s).value.fingerprint ≠ (c'.candidate s').value.fingerprint
  /-- The second sample is dropped after the first only if it was marked before the first,
  whatever becomes of the first. -/
  kept : ∀ {σ : Type} (sink sink' : Sink σ) (p : Progress σ),
    (c'.offer sink' s' (c.offer sink s p).value.2).value.1 = .duplicate ↔
      (c'.candidate s').value.fingerprint ∈ p.ledger.marks

theorem apart_of_fingerprint_ne {c c' : Collector} {s s' : Sample}
    (hne : (c.candidate s).value.fingerprint ≠ (c'.candidate s').value.fingerprint) :
    Apart c c' s s' where
  fingerprint_ne := hne
  kept := fun sink sink' p =>
    Offer.duplicate_after_iff (a := ⟨sink, (c.candidate s).value⟩)
      (b := ⟨sink', (c'.candidate s').value⟩) p hne

/-- Two samples of one series, each as its collector puts it together, that were measured
at two times. -/
structure Remeasured (c c' : Collector) (s s' : Sample) (t t' : Instant) : Prop where
  name : s.name = s'.name
  labels : ∀ key, (c.candidate s).value.emission.labels.get? key =
    (c'.candidate s').value.emission.labels.get? key
  time : s.time = some t
  time' : s'.time = some t'

theorem Remeasured.apart {c c' : Collector} {s s' : Sample} {t t' : Instant}
    (h : Remeasured c c' s s' t t') (hnear : t.Near t') : Apart c c' s s' := by
  apply apart_of_fingerprint_ne
  show Fingerprint.of s.name _ _ s.time ≠ Fingerprint.of s'.name _ _ s'.time
  rw [h.time, h.time', ← h.name]
  apply Fingerprint.of_ne_of_neighbours
  exact Fingerprint.encoding_neighbours s.name (c.candidate_labels_wellFormed s)
    (c'.candidate_labels_wellFormed s') h.labels hnear

/-- Bytes that differ inside a window of four never lead from one state to one state,
whatever stands before and behind the window.  So samples with neighbouring encodings have
different fingerprints, and where a series is measured at times near each other, the one
sample is not dropped for the other. -/
theorem apart_of_neighbours :
    (∀ (h : UInt64) (p s w w' : List UInt8), w.length = w'.length → w.length ≤ 4 → w ≠ w' →
      Fnv.fold h (p ++ w ++ s) ≠ Fnv.fold h (p ++ w' ++ s)) ∧
    (∀ (name name' : String) (keys values keys' values' : List String)
      (time time' : Option Instant),
      Fnv.Neighbours (Fingerprint.encoding name keys values time)
        (Fingerprint.encoding name' keys' values' time') →
      Fingerprint.of name keys values time ≠ Fingerprint.of name' keys' values' time') ∧
    (∀ (c c' : Collector) (s s' : Sample) (t t' : Instant),
      Remeasured c c' s s' t t' → t.Near t' → Apart c c' s s') := by
  refine ⟨?runs, ?samples, ?series⟩
  case runs => exact fun h p s w w' => Fnv.fold_ne_of_window h p s
  case samples => exact fun _ _ _ _ _ _ _ _ => Fingerprint.of_ne_of_neighbours
  case series => exact fun _ _ _ _ _ _ => Remeasured.apart

/-- Four bytes between others, two names that differ in their last letter, and a series at
the epoch and a nanosecond later. -/
theorem apart_of_neighbours_at_epoch :
    Fnv.fold Fnv.offsetBasis ([0x75] ++ [0xFF, 0x00, 0x00, 0xFF] ++ [0xFF]) ≠
        Fnv.fold Fnv.offsetBasis ([0x75] ++ [0x00, 0x01, 0xFF, 0x00] ++ [0xFF]) ∧
      Fnv.Neighbours (Fingerprint.encoding "up" [] [] none)
        (Fingerprint.encoding "us" [] [] none) ∧
      Fingerprint.of "up" [] [] none ≠ Fingerprint.of "us" [] [] none ∧
      Remeasured (ofOptions {}) (ofOptions {}) { name := "up", time := some ⟨0⟩ }
        { name := "up", time := some ⟨1⟩ } ⟨0⟩ ⟨1⟩ ∧
      (Instant.mk 0).Near ⟨1⟩ ∧
      Apart (ofOptions {}) (ofOptions {}) { name := "up", time := some ⟨0⟩ }
        { name := "up", time := some ⟨1⟩ } := by
  have hneighbours : Fnv.Neighbours (Fingerprint.encoding "up" [] [] none)
      (Fingerprint.encoding "us" [] [] none) := by
    have hup : Fingerprint.encoding "up" [] [] none = [0x75, 0x70, 0xFF] := by decide +kernel
    have hus : Fingerprint.encoding "us" [] [] none = [0x75, 0x73, 0xFF] := by decide +kernel
    rw [hup, hus]
    refine ⟨by decide, rfl, 0, fun i hi => ?_⟩
    have hthree : 3 ≤ i := by omega
    rw [List.getElem?_eq_none hthree, List.getElem?_eq_none hthree]
  have hseries : Remeasured (ofOptions {}) (ofOptions {}) { name := "up", time := some ⟨0⟩ }
      { name := "up", time := some ⟨1⟩ } ⟨0⟩ ⟨1⟩ := ⟨rfl, fun _ => rfl, rfl, rfl⟩
  have hnear : (Instant.mk 0).Near ⟨1⟩ := ⟨by decide, .inl (by decide)⟩
  refine ⟨?_, hneighbours, ?_, hseries, hnear, ?_⟩
  · exact apart_of_neighbours.1 _ _ _ _ _ rfl (by decide) (by decide)
  · exact apart_of_neighbours.2.1 _ _ _ _ _ _ _ _ hneighbours
  · exact apart_of_neighbours.2.2 _ _ _ _ _ _ hseries hnear

/-- At the end of the range two times have one stamp, and the sink is not asked for the
second sample. -/
theorem exists_dropped_remeasured :
    ¬ ∀ (c c' : Collector) (s s' : Sample) (t t' : Instant), Remeasured c c' s s' t t' → t ≠ t' →
      t.stamp.toUInt64 >>> 32 = t'.stamp.toUInt64 >>> 32 →
      ∀ (sink sink' : Sink Nat) (p : Progress Nat),
        (c'.offer sink' s' (c.offer sink s p).value.2).value.1 = .duplicate →
          (c'.candidate s').value.fingerprint ∈ p.ledger.marks := by
  intro h
  have hmarked := h (ofOptions {}) (ofOptions {}) { name := "up", time := some ⟨2 ^ 63⟩ }
    { name := "up", time := some ⟨2 ^ 63 + 1⟩ } ⟨2 ^ 63⟩ ⟨2 ^ 63 + 1⟩
    ⟨rfl, fun _ => rfl, rfl, rfl⟩ (by decide) (by decide) (.reluctant (.sink "closed"))
    (.reluctant (.sink "closed")) ⟨Ledger.empty, 0⟩ (by decide +kernel)
  exact absurd hmarked List.not_mem_nil

end Collector

end Scrape
