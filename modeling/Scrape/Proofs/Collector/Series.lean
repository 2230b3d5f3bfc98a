/-
Samples of one series.

What makes two samples copies of each other is their name, their labels as a map
and their time as far as a fingerprint can tell it (`SameSeries`).  Where a label
came from, at which place it stands, which collector put it there and what was
measured are of no account: the labels are sorted by their keys before they are
hashed, and a map has one sorted order.

So copies have one fingerprint, and when a sink has taken one of them its mark
stays.  All that come later are dropped, in calls that follow one another and in
calls that run side by side.
-/
import Scrape.Proofs.Collector.Overtaking
import Scrape.Proofs.Fingerprint.Encoding
import Scrape.Proofs.LabelPolicy

namespace Scrape

variable {σ : Type}

/-! ## One fingerprint -/

namespace Collector

/-- Two samples, each as its collector puts it together, are of one series. -/
structure SameSeries (c c' : Collector) (s s' : Sample) : Prop where
  name : s.name = s'.name
  time : s.time.map Instant.stamp = s'.time.map Instant.stamp
  labels : ∀ key, (c.candidate s).value.emission.labels.get? key =
    (c'.candidate s').value.emission.labels.get? key

theorem candidate_labels_wellFormed (c : Collector) (s : Sample) :
    (c.candidate s).value.emission.labels.WellFormed :=
  c.policy.join_wellFormed s.unit s.metric s.resource s.payload

theorem SameSeries.fingerprint_eq {c c' : Collector} {s s' : Sample}
    (h : SameSeries c c' s s') :
    (c.candidate s).value.fingerprint = (c'.candidate s').value.fingerprint := by
  show Fingerprint.of s.name _ _ s.time = Fingerprint.of s'.name _ _ s'.time
  rw [← h.name]
  exact Fingerprint.of_eq_of (c.candidate_labels_wellFormed s) (c'.candidate_labels_wellFormed s')
    h.labels h.time

/-- The order in which a payload gives its labels makes no other series. -/
theorem sameSeries_of_perm (c : Collector) (s : Sample) {payload : List UInt8}
    {pairs pairs' : List (String × String)} (h : Payload.labels s.payload = .ok pairs)
    (h' : Payload.labels payload = .ok pairs') (hperm : pairs.Perm pairs') :
    SameSeries c c s { s with payload } where
  name := rfl
  time := rfl
  labels := c.policy.get?_join_of_perm s.unit s.metric s.resource h h' hperm

end Collector

/-! ## After an emission -/

/-- What a sink took is a duplicate ever after. -/
theorem Offer.duplicate_of_emitted {offers : List (Offer σ)} {p : Progress σ}
    {pre mid post : List (Admission σ)} {a b : Admission σ}
    (h : trace offers p = pre ++ a :: (mid ++ b :: post)) (ha : a.outcome = .emitted)
    (hs : a.fingerprint = b.fingerprint) :
    b.outcome = .duplicate ∧
      b.after = ⟨b.before.ledger.countCheck.countDuplicate, b.before.sink⟩ := by
  rw [← List.cons_append, ← List.append_assoc] at h
  obtain ⟨before, after, o, -, hpre, rfl⟩ := exists_of_trace_eq h
  have haccepted : a.fingerprint ∈ Admission.accepted (trace before p) := by
    rw [← hpre]
    refine List.mem_map_of_mem (List.mem_filter.mpr ⟨?_, decide_eq_true ha⟩)
    exact List.mem_append_right _ List.mem_cons_self
  have hmarked : o.candidate.fingerprint ∈ (settle before p).ledger.marks := by
    rw [mem_marks_settle, show o.candidate.fingerprint = a.fingerprint from hs.symm]
    exact .inr haccepted
  simp only [make, Candidate.offer_of_mem hmarked, and_self]

namespace Collector

namespace Crew

/-- The marks of what sinks took stay for the rest of a run. -/
theorem mem_marks_of_emitted {l : Ledger} {w : Crew σ} (h : Ownership l w) {c : Candidate}
    (hc : (c, .emitted) ∈ w.threads.flatMap (·.outcomes)) (picks : List Nat) :
    c.fingerprint ∈ (w.run picks).ledger.marks := by
  have haccepted : c.fingerprint ∈ w.accepted := by
    obtain ⟨t, ht, hc⟩ := List.mem_flatMap.mp hc
    refine List.mem_flatMap.mpr ⟨t, ht, ?_⟩
    exact List.mem_map_of_mem (List.mem_filter.mpr ⟨hc, rfl⟩)
  have hlater := w.ended_subset_run picks .emitted haccepted
  rw [(h.run picks).conserved.mem_iff, List.mem_append, (stake_perm _).mem_iff, List.mem_append]
  exact .inl (.inr hlater)

end Crew

/-! ## The law of a series -/

/-- What is the same for all samples of a series, and what becomes of them. -/
structure SeriesLaw (c c' : Collector) (s s' : Sample) : Prop where
  fingerprint : (c.candidate s).value.fingerprint = (c'.candidate s').value.fingerprint
  /-- In calls one after another, of any collectors with any sinks: once one sample
  was emitted the other is a duplicate, and no sink hears of it. -/
  calls : ∀ {σ : Type} (calls : List (Call σ)) (p : Progress σ)
    (pre mid post : List (Admission σ)) (a b : Admission σ),
    Call.history calls p = pre ++ a :: (mid ++ b :: post) →
    a.offer.candidate = (c.candidate s).value → a.outcome = .emitted →
    b.offer.candidate = (c'.candidate s').value →
      b.outcome = .duplicate ∧
        b.after = ⟨b.before.ledger.countCheck.countDuplicate, b.before.sink⟩
  /-- The same on threads that share the ledger, at any point after the emission
  and however the steps of the threads are mixed. -/
  threads : ∀ {σ : Type} (l : Ledger) (desks : List (Desk σ)) (picks more : List Nat)
    (i : Nat) (t : Thread σ) (rest : List Candidate),
    ((c.candidate s).value, .emitted) ∈
      ((Crew.start l desks).run picks).threads.flatMap (·.outcomes) →
    (((Crew.start l desks).run picks).run more).threads[i]? = some t → t.point = .idle →
    t.candidates = (c'.candidate s').value :: rest →
      ((((Crew.start l desks).run picks).run more).step i).threads[i]? =
        some ({ t with candidates := rest }.finish (c'.candidate s').value .duplicate)

theorem SameSeries.seriesLaw {c c' : Collector} {s s' : Sample} (h : SameSeries c c' s s') :
    SeriesLaw c c' s s' where
  fingerprint := h.fingerprint_eq
  calls := by
    intro σ calls p pre mid post a b hhistory ha hemitted hb
    refine Offer.duplicate_of_emitted hhistory hemitted ?_
    rw [Admission.fingerprint, Admission.fingerprint, ha, hb]
    exact h.fingerprint_eq
  threads := by
    intro σ l desks picks more i t rest hemitted ht hp hc
    have howned := (Crew.start_ownership l desks).run picks
    have hmarked := Crew.mem_marks_of_emitted howned hemitted more
    rw [h.fingerprint_eq] at hmarked
    exact Team.getElem?_step ht (Thread.step?_of_mem hp hc hmarked)

/-- Samples of one series are dropped when one of them was emitted, whichever
collectors they come from and whatever was measured; and samples that differ in
the order of the labels in their payloads only are of one series. -/
theorem seriesLaw_of_sameSeries :
    (∀ {c c' : Collector} {s s' : Sample}, SameSeries c c' s s' → SeriesLaw c c' s s') ∧
    ∀ (c : Collector) (s : Sample) {payload : List UInt8} {pairs pairs' : List (String × String)},
      Payload.labels s.payload = .ok pairs → Payload.labels payload = .ok pairs' →
      pairs.Perm pairs' → SameSeries c c s { s with payload } :=
  ⟨SameSeries.seriesLaw, sameSeries_of_perm⟩

/-- A payload and another one with the same members in the other order: the second
sample finds the mark of the first. -/
theorem seriesLaw_of_sameSeries_reordered :
    Payload.labels (Utf8.encode "\x7b\"a\":\"1\",\"b\":2\x7d") =
        .ok [("a", "1"), ("b", "2")] ∧
      Payload.labels (Utf8.encode "\x7b\"b\":2,\"a\":\"1\"\x7d") =
        .ok [("b", "2"), ("a", "1")] ∧
      (Call.history
        [⟨ofOptions { policy := { payloads := true } }, .reluctant (.sink "closed"),
          .row
            [{ name := "up", payload := Utf8.encode "\x7b\"a\":\"1\",\"b\":2\x7d" },
              { name := "up", payload := Utf8.encode "\x7b\"b\":2,\"a\":\"1\"\x7d" }]⟩]
        ⟨Ledger.empty, 0⟩).map (·.outcome) = [.emitted, .duplicate] := by
  have h : Payload.labels (Utf8.encode "\x7b\"a\":\"1\",\"b\":2\x7d") =
      .ok [("a", "1"), ("b", "2")] := by decide +kernel
  have h' : Payload.labels (Utf8.encode "\x7b\"b\":2,\"a\":\"1\"\x7d") =
      .ok [("b", "2"), ("a", "1")] := by decide +kernel
  refine ⟨h, h', ?_⟩
  have hseries := seriesLaw_of_sameSeries.2 (ofOptions { policy := { payloads := true } })
    { name := "up", payload := Utf8.encode "\x7b\"a\":\"1\",\"b\":2\x7d" } h h' (.swap _ _ [])
  have hfirst (d : Candidate) :
      (Offer.make ⟨.reluctant (.sink "closed"), d⟩ ⟨Ledger.empty, 0⟩).outcome = .emitted := by
    rw [Offer.make, Candidate.offer_of_ok List.not_mem_nil rfl]
  have hsecond := (seriesLaw_of_sameSeries.1 hseries).calls
    [⟨ofOptions { policy := { payloads := true } }, .reluctant (.sink "closed"), .row [_, _]⟩]
    ⟨Ledger.empty, 0⟩ [] [] [] (Offer.make ⟨_, (candidate _ _).value⟩ _)
    (Offer.make ⟨_, (candidate _ _).value⟩ _) rfl rfl (hfirst _) rfl
  exact congrArg₂ (fun o o' => [o, o']) (hfirst _) hsecond.1

end Collector

end Scrape
