/-
What becomes of the samples of one fingerprint.

Collectors that share a ledger are called one after another, each call with a
sink of its own.  Underneath, every call is a row of offers: a candidate, a
sink, and the ledger as it stands.  An offer goes one of three ways
(`offer_cases`), and only one of them leaves a mark: the fingerprint was marked
and nothing changes, the sink takes the sample and the mark stays, or the sink
refuses and the mark is gone again.  So after any row of offers the marks are
those of the start and those of the samples a sink took
(`mem_marks_settle`), and the outcomes of one fingerprint are refusals, then at
most one emission, then duplicates.

`outcomeLaw_of_calls` says so of whole calls.  It rests on one fact about the
collector, that its calls make exactly the offers of `Call.offers`, in that
order and with nothing between them.
-/
import Scrape.Collector
import Scrape.Proofs.Delivery
import Scrape.Proofs.Ledger.Marks

namespace Scrape

variable {σ : Type}

/-- The fingerprint of what a sink gets. -/
def Emission.fingerprint (e : Emission) : UInt64 :=
  Fingerprint.of e.name e.labels.keys e.labels.values e.time

/-! ## One offer -/

namespace Candidate

variable {c : Candidate} {sink : Sink σ} {p : Progress σ}

theorem offer_of_mem (h : c.fingerprint ∈ p.ledger.marks) :
    c.offer sink p =
      ⟨(.duplicate, ⟨p.ledger.countCheck.countDuplicate, p.sink⟩),
        [.duplicate c.emission.name c.fingerprint]⟩ := by
  rw [offer, Ledger.check_of_mem _ h]
  rfl

theorem offer_of_ok {state : σ} (h : c.fingerprint ∉ p.ledger.marks)
    (hs : sink.emit p.sink c.emission = (.ok (), state)) :
    c.offer sink p =
      ⟨(.emitted, ⟨p.ledger.countCheck.withMarks (c.fingerprint :: p.ledger.marks), state⟩),
        []⟩ := by
  rw [offer, Ledger.check_of_not_mem _ h]
  simp only [bind, Logged.bind, hs]
  rfl

theorem offer_of_error {fault : Fault} {state : σ} (h : c.fingerprint ∉ p.ledger.marks)
    (hs : sink.emit p.sink c.emission = (.error fault, state)) :
    c.offer sink p =
      ⟨(.failed, ⟨p.ledger.countCheck.withMarks p.ledger.marks, state⟩),
        [.refused c.emission.name fault]⟩ := by
  rw [offer, Ledger.check_of_not_mem _ h]
  simp only [bind, Logged.bind, hs, Ledger.unmark_withMarks_cons]
  rfl

/-- The three ways of an offer, each with all that it changes. -/
theorem offer_cases (c : Candidate) (sink : Sink σ) (p : Progress σ) :
    (c.fingerprint ∈ p.ledger.marks ∧
      c.offer sink p =
        ⟨(.duplicate, ⟨p.ledger.countCheck.countDuplicate, p.sink⟩),
          [.duplicate c.emission.name c.fingerprint]⟩) ∨
    (∃ state, c.fingerprint ∉ p.ledger.marks ∧
      sink.emit p.sink c.emission = (.ok (), state) ∧
      c.offer sink p =
        ⟨(.emitted, ⟨p.ledger.countCheck.withMarks (c.fingerprint :: p.ledger.marks), state⟩),
          []⟩) ∨
    (∃ fault state, c.fingerprint ∉ p.ledger.marks ∧
      sink.emit p.sink c.emission = (.error fault, state) ∧
      c.offer sink p =
        ⟨(.failed, ⟨p.ledger.countCheck.withMarks p.ledger.marks, state⟩),
          [.refused c.emission.name fault]⟩) := by
  by_cases h : c.fingerprint ∈ p.ledger.marks
  · exact .inl ⟨h, offer_of_mem h⟩
  · cases hs : sink.emit p.sink c.emission with
    | mk answer state =>
        cases answer with
        | ok u => exact .inr (.inl ⟨state, h, rfl, offer_of_ok h hs⟩)
        | error fault => exact .inr (.inr ⟨fault, state, h, rfl, offer_of_error h hs⟩)

end Candidate

/-! ## Offers in a row -/

/-- A sink that refuses as often as its state says, and then takes everything. -/
def Sink.reluctant (fault : Fault) : Sink Nat where
  emit
    | 0, _ => (.ok (), 0)
    | n + 1, _ => (.error fault, n)

/-- A candidate on its way to a sink.  All sinks of a row look at one state of
type `σ`, each at its part of it. -/
structure Offer (σ : Type) where
  sink : Sink σ
  candidate : Candidate

/-- An offer that was made: what came of it, and how things stood before and
after. -/
structure Admission (σ : Type) where
  offer : Offer σ
  before : Progress σ
  outcome : Outcome
  after : Progress σ

namespace Admission

def fingerprint (a : Admission σ) : UInt64 := a.offer.candidate.fingerprint

/-- The fingerprints of the admissions whose outcome is recorded as emitted, in their order.  They
are the ones that a sink took if the record is truthful. -/
def accepted (admissions : List (Admission σ)) : List UInt64 :=
  (admissions.filter (·.outcome = .emitted)).map fingerprint

/-- The recorded outcome is what the sink made of the offer. -/
structure Truthful (a : Admission σ) : Prop where
  /-- What counts as emitted was taken by the sink. -/
  taken : a.outcome = .emitted →
    a.offer.sink.emit a.before.sink a.offer.candidate.emission = (.ok (), a.after.sink)
  /-- What counts as failed was refused by it. -/
  refused : a.outcome = .failed → ∃ fault,
    a.offer.sink.emit a.before.sink a.offer.candidate.emission = (.error fault, a.after.sink)
  /-- A duplicate was not shown to it. -/
  passed : a.outcome = .duplicate → a.after.sink = a.before.sink

/-- The outcomes of one fingerprint, in the order of the admissions. -/
def outcomesOf (s : UInt64) (admissions : List (Admission σ)) : List Outcome :=
  (admissions.filter (·.fingerprint = s)).map (·.outcome)

theorem accepted_cons (a : Admission σ) (admissions : List (Admission σ)) :
    accepted (a :: admissions) =
      if a.outcome = .emitted then a.fingerprint :: accepted admissions
      else accepted admissions := by
  by_cases h : a.outcome = .emitted <;> simp [accepted, h]

theorem outcomesOf_cons (s : UInt64) (a : Admission σ) (admissions : List (Admission σ)) :
    outcomesOf s (a :: admissions) =
      if a.fingerprint = s then a.outcome :: outcomesOf s admissions
      else outcomesOf s admissions := by
  by_cases h : a.fingerprint = s <;> simp [outcomesOf, h]

end Admission

namespace Offer

def make (o : Offer σ) (p : Progress σ) : Admission σ :=
  let x := (o.candidate.offer o.sink p).value
  { offer := o, before := p, outcome := x.1, after := x.2 }

/-- Offers made one after another, each where the one before it left off. -/
def trace : List (Offer σ) → Progress σ → List (Admission σ)
  | [], _ => []
  | o :: offers, p => o.make p :: trace offers (o.make p).after

/-- How things stand after offers made one after another. -/
def settle (offers : List (Offer σ)) (p : Progress σ) : Progress σ :=
  offers.foldl (fun p o => (o.make p).after) p

theorem settle_append (offers more : List (Offer σ)) (p : Progress σ) :
    settle (offers ++ more) p = settle more (settle offers p) := by
  simp [settle]

theorem trace_append (offers more : List (Offer σ)) (p : Progress σ) :
    trace (offers ++ more) p = trace offers p ++ trace more (settle offers p) := by
  induction offers generalizing p with
  | nil => rfl
  | cons o offers ih => exact congrArg (o.make p :: ·) (ih (o.make p).after)

/-- An admission in a row was an offer in that row, and it started from what
the offers before it left behind. -/
theorem exists_of_trace_eq {offers : List (Offer σ)} {p : Progress σ}
    {pre post : List (Admission σ)} {a : Admission σ} (h : trace offers p = pre ++ a :: post) :
    ∃ (before after : List (Offer σ)) (o : Offer σ), offers = before ++ o :: after ∧
      pre = trace before p ∧ a = o.make (settle before p) := by
  induction offers generalizing p pre with
  | nil => simp [trace] at h
  | cons o offers ih =>
      cases pre with
      | nil =>
          simp only [trace, List.nil_append, List.cons.injEq] at h
          exact ⟨[], offers, o, rfl, rfl, h.1.symm⟩
      | cons b pre =>
          simp only [trace, List.cons_append, List.cons.injEq] at h
          obtain ⟨rfl, h⟩ := h
          obtain ⟨before, after, o', rfl, rfl, ha⟩ := ih h
          exact ⟨o :: before, after, o', rfl, rfl, ha⟩

theorem exists_of_mem_trace {offers : List (Offer σ)} {p : Progress σ} {a : Admission σ}
    (h : a ∈ trace offers p) :
    ∃ (before after : List (Offer σ)) (o : Offer σ), offers = before ++ o :: after ∧
      a = o.make (settle before p) := by
  obtain ⟨pre, post, h⟩ := List.append_of_mem h
  obtain ⟨before, after, o, hoffers, -, ha⟩ := exists_of_trace_eq h
  exact ⟨before, after, o, hoffers, ha⟩

theorem map_offer_trace (offers : List (Offer σ)) (p : Progress σ) :
    (trace offers p).map (·.offer) = offers := by
  induction offers generalizing p with
  | nil => rfl
  | cons o offers ih => exact congrArg (o :: ·) (ih (o.make p).after)

theorem make_cases (o : Offer σ) (p : Progress σ) :
    ((o.make p).outcome = .duplicate ∧ o.candidate.fingerprint ∈ p.ledger.marks ∧
      (o.make p).after.ledger = p.ledger.countCheck.countDuplicate) ∨
    ((o.make p).outcome = .emitted ∧ o.candidate.fingerprint ∉ p.ledger.marks ∧
      (o.make p).after.ledger =
        p.ledger.countCheck.withMarks (o.candidate.fingerprint :: p.ledger.marks)) ∨
    ((o.make p).outcome = .failed ∧ o.candidate.fingerprint ∉ p.ledger.marks ∧
      (o.make p).after.ledger = p.ledger.countCheck.withMarks p.ledger.marks) := by
  obtain ⟨h, e⟩ | ⟨_, h, -, e⟩ | ⟨_, _, h, -, e⟩ := o.candidate.offer_cases o.sink p
  · exact .inl ⟨by simp [make, e], h, by simp [make, e]⟩
  · exact .inr (.inl ⟨by simp [make, e], h, by simp [make, e]⟩)
  · exact .inr (.inr ⟨by simp [make, e], h, by simp [make, e]⟩)

/-- What an offer does to a sink: it does not reach it, is taken, or is refused. -/
theorem make_sink_cases (o : Offer σ) (p : Progress σ) :
    ((o.make p).outcome = .duplicate ∧ (o.make p).after.sink = p.sink) ∨
    ((o.make p).outcome = .emitted ∧
      o.sink.emit p.sink o.candidate.emission = (.ok (), (o.make p).after.sink)) ∨
    ((o.make p).outcome = .failed ∧ ∃ fault,
      o.sink.emit p.sink o.candidate.emission = (.error fault, (o.make p).after.sink)) := by
  obtain ⟨-, e⟩ | ⟨state, -, hs, e⟩ | ⟨fault, state, -, hs, e⟩ := o.candidate.offer_cases o.sink p
  · exact .inl ⟨by simp [make, e], by simp [make, e]⟩
  · exact .inr (.inl ⟨by simp [make, e], by simp [make, e, hs]⟩)
  · exact .inr (.inr ⟨by simp [make, e], fault, by simp [make, e, hs]⟩)

theorem make_truthful (o : Offer σ) (p : Progress σ) : (o.make p).Truthful := by
  obtain ⟨ho, hs⟩ | ⟨ho, hs⟩ | ⟨ho, hs⟩ := o.make_sink_cases p
  · exact ⟨fun h => (by cases ho.symm.trans h), fun h => (by cases ho.symm.trans h), fun _ => hs⟩
  · exact ⟨fun _ => hs, fun h => (by cases ho.symm.trans h), fun h => (by cases ho.symm.trans h)⟩
  · exact ⟨fun h => (by cases ho.symm.trans h), fun _ => hs, fun h => (by cases ho.symm.trans h)⟩

theorem truthful_of_mem_trace {offers : List (Offer σ)} {p : Progress σ} {a : Admission σ}
    (h : a ∈ trace offers p) : a.Truthful := by
  obtain ⟨before, after, o, -, rfl⟩ := exists_of_mem_trace h
  exact o.make_truthful (settle before p)

/-! ## What offers in a row leave behind -/

open Admission

theorem mem_marks_make (s : UInt64) (o : Offer σ) (p : Progress σ) :
    s ∈ (o.make p).after.ledger.marks ↔
      s ∈ p.ledger.marks ∨ (o.make p).outcome = .emitted ∧ s = o.candidate.fingerprint := by
  obtain ⟨ho, -, e⟩ | ⟨ho, -, e⟩ | ⟨ho, -, e⟩ := make_cases o p
  · simp [e, ho]
  · simp [e, ho, or_comm]
  · simp [e, ho]

/-- The marks after a row of offers are those of the start and those that a
sink took. -/
theorem mem_marks_settle (s : UInt64) (offers : List (Offer σ)) (p : Progress σ) :
    s ∈ (settle offers p).ledger.marks ↔
      s ∈ p.ledger.marks ∨ s ∈ accepted (trace offers p) := by
  induction offers generalizing p with
  | nil => simp [settle, trace, accepted]
  | cons o offers ih =>
      rw [settle, List.foldl_cons, ← settle, ih, mem_marks_make, trace, accepted_cons]
      by_cases h : (o.make p).outcome = .emitted
      · rw [if_pos h, List.mem_cons, or_assoc]
        simp only [h, true_and]
        exact Iff.rfl
      · simp only [h, false_and, or_false, if_false]

theorem make_wellFormed (o : Offer σ) {p : Progress σ} (h : p.ledger.WellFormed) :
    (o.make p).after.ledger.WellFormed := by
  obtain ⟨-, -, e⟩ | ⟨-, hn, e⟩ | ⟨-, -, e⟩ := make_cases o p
  · rw [e]
    exact h.countCheck.countDuplicate
  · rw [e]
    exact Ledger.withMarks_wellFormed _ (List.nodup_cons.mpr ⟨hn, h.nodup⟩)
  · rw [e]
    exact Ledger.withMarks_wellFormed _ h.nodup

theorem settle_wellFormed (offers : List (Offer σ)) {p : Progress σ}
    (h : p.ledger.WellFormed) : (settle offers p).ledger.WellFormed := by
  induction offers generalizing p with
  | nil => exact h
  | cons o offers ih => exact ih (make_wellFormed o h)

/-- What is marked reaches no sink any more. -/
theorem not_mem_accepted {s : UInt64} (offers : List (Offer σ)) {p : Progress σ}
    (h : s ∈ p.ledger.marks) : s ∉ accepted (trace offers p) := by
  induction offers generalizing p with
  | nil => simp [trace, accepted]
  | cons o offers ih =>
      have hrest := ih ((mem_marks_make s o p).mpr (.inl h))
      rw [trace, accepted_cons]
      obtain ⟨ho, -⟩ | ⟨ho, hn, -⟩ | ⟨ho, -⟩ := make_cases o p
      · rwa [if_neg (by simp [ho])]
      · rw [if_pos ho, List.mem_cons, not_or]
        refine ⟨fun hs => hn ?_, hrest⟩
        rw [hs] at h
        exact h
      · rwa [if_neg (by simp [ho])]

/-- No fingerprint is taken twice: the first time marks it. -/
theorem nodup_accepted (offers : List (Offer σ)) (p : Progress σ) :
    (accepted (trace offers p)).Nodup := by
  induction offers generalizing p with
  | nil => exact List.nodup_nil
  | cons o offers ih =>
      rw [trace, accepted_cons]
      by_cases h : (o.make p).outcome = .emitted
      · rw [if_pos h]
        refine List.nodup_cons.mpr ⟨not_mem_accepted offers ?_, ih _⟩
        exact (mem_marks_make _ o p).mpr (.inr ⟨h, rfl⟩)
      · rw [if_neg h]
        exact ih _

/-! ## The outcomes of one fingerprint -/

/-- A fingerprint that is marked has nothing but duplicates ahead. -/
theorem outcomesOf_of_mem {s : UInt64} (offers : List (Offer σ)) {p : Progress σ}
    (h : s ∈ p.ledger.marks) :
    ∃ n, outcomesOf s (trace offers p) = List.replicate n .duplicate := by
  induction offers generalizing p with
  | nil => exact ⟨0, rfl⟩
  | cons o offers ih =>
      obtain ⟨n, hn⟩ := ih ((mem_marks_make s o p).mpr (.inl h))
      rw [trace, outcomesOf_cons, hn]
      by_cases hs : (o.make p).fingerprint = s
      · rw [if_pos hs]
        have hm : o.candidate.fingerprint ∈ p.ledger.marks := by
          subst hs
          exact h
        have ho : (o.make p).outcome = .duplicate := by
          simp [make, Candidate.offer_of_mem hm]
        exact ⟨n + 1, by rw [ho, List.replicate_succ]⟩
      · rw [if_neg hs]
        exact ⟨n, rfl⟩

/-- A fingerprint that is not marked is refused until a sink takes it, and is a
duplicate from then on. -/
theorem outcomesOf_of_not_mem {s : UInt64} (offers : List (Offer σ)) {p : Progress σ}
    (h : s ∉ p.ledger.marks) :
    ∃ n, outcomesOf s (trace offers p) = List.replicate n .failed ∨
      ∃ m, outcomesOf s (trace offers p) =
        List.replicate n .failed ++ .emitted :: List.replicate m .duplicate := by
  induction offers generalizing p with
  | nil => exact ⟨0, .inl rfl⟩
  | cons o offers ih =>
      rw [trace, outcomesOf_cons]
      by_cases hs : (o.make p).fingerprint = s
      · rw [if_pos hs]
        subst hs
        obtain ⟨-, hm, -⟩ | ⟨ho, -⟩ | ⟨ho, -⟩ := make_cases o p
        · exact absurd hm h
        · -- taken: what follows is marked
          obtain ⟨m, hm⟩ := outcomesOf_of_mem offers ((mem_marks_make _ o p).mpr (.inr ⟨ho, rfl⟩))
          exact ⟨0, .inr ⟨m, by rw [ho, ← hm]; rfl⟩⟩
        · -- refused: what follows is where this one was
          obtain ⟨n, hn | ⟨m, hn⟩⟩ := ih (p := (o.make p).after) (by
            rw [mem_marks_make, not_or]
            exact ⟨h, fun he => by simp [ho] at he⟩)
          · exact ⟨n + 1, .inl (by rw [ho, hn, List.replicate_succ])⟩
          · exact ⟨n + 1, .inr ⟨m, by rw [ho, hn, List.replicate_succ, List.cons_append]⟩⟩
      · rw [if_neg hs]
        refine ih ?_
        rw [mem_marks_make, not_or]
        exact ⟨h, fun he => hs he.2.symm⟩

end Offer

/-! ## Calls of collectors -/

namespace Collector

/-- What one call brings: a sample, samples in a row, or shards whose candidates
arrive in the order of the picks. -/
inductive Load where
  | sample (s : Sample)
  | row (samples : List Sample)
  | shards (picks : List Nat) (shards : List (List Sample))

/-- A call of a collector.  Collectors, sinks and loads may differ from call to
call; what the calls have in common is the ledger. -/
structure Call (σ : Type) where
  collector : Collector
  sink : Sink σ
  load : Load

namespace Call

/-- Makes a call, and gives the outcomes of its samples.  `Collector.collect` and
`Collector.collectShards` answer with the tally of these. -/
def perform (r : Call σ) (p : Progress σ) : Logged (List Outcome × Progress σ) :=
  match r.load with
  | .sample s => Prod.map ([·]) id <$> r.collector.offer r.sink s p
  | .row samples => r.collector.offerAll r.sink samples p
  | .shards picks shards => r.collector.offerShards r.sink picks shards p

def performAll : List (Call σ) → Progress σ → Logged (List Outcome × Progress σ)
  | [], p => pure ([], p)
  | r :: calls, p => do
      let (outcomes, p) ← r.perform p
      Prod.map (outcomes ++ ·) id <$> performAll calls p

/-- What is offered in a call, in the order in which it is offered. -/
def offers (r : Call σ) : List (Offer σ) :=
  match r.load with
  | .sample s => [⟨r.sink, (r.collector.candidate s).value⟩]
  | .row samples => samples.map fun s => ⟨r.sink, (r.collector.candidate s).value⟩
  | .shards picks shards =>
      (Delivery.deliver picks (r.collector.streams shards)).map fun x => ⟨r.sink, x.value⟩

end Call

/-- A collector's candidates have the fingerprints of what a sink gets. -/
theorem fingerprint_candidate (c : Collector) (s : Sample) :
    (c.candidate s).value.fingerprint = (c.candidate s).value.emission.fingerprint := rfl

theorem exists_of_mem_offers {r : Call σ} {o : Offer σ} (h : o ∈ r.offers) :
    ∃ s, o.candidate = (r.collector.candidate s).value := by
  cases r with
  | mk c sink load =>
      cases load with
      | sample s =>
          obtain rfl := List.mem_singleton.mp h
          exact ⟨s, rfl⟩
      | row samples =>
          obtain ⟨s, -, rfl⟩ := List.mem_map.mp h
          exact ⟨s, rfl⟩
      | shards picks shards =>
          obtain ⟨x, hx, rfl⟩ := List.mem_map.mp h
          -- what arrives is what some worker sent
          rw [(Delivery.deliver_perm picks _).mem_iff, streams, List.mem_flatten] at hx
          obtain ⟨_, hstream, hx⟩ := hx
          obtain ⟨samples, -, rfl⟩ := List.mem_map.mp hstream
          obtain ⟨s, -, rfl⟩ := List.mem_map.mp hx
          exact ⟨s, rfl⟩

theorem offerAll_eq_candidates (c : Collector) (sink : Sink σ) (samples : List Sample)
    (p : Progress σ) :
    c.offerAll sink samples p = Candidate.offerAll sink (samples.map c.candidate) p := by
  induction samples generalizing p with
  | nil => rfl
  | cons s samples ih =>
      simp only [List.map_cons, offerAll, Candidate.offerAll, offer, ih]
      exact Logged.bind_assoc _ _ _

end Collector

theorem Candidate.value_offerAll (sink : Sink σ) (arrivals : List (Logged Candidate))
    (p : Progress σ) :
    (offerAll sink arrivals p).value =
      ((Offer.trace (arrivals.map fun x => ⟨sink, x.value⟩) p).map (·.outcome),
        Offer.settle (arrivals.map fun x => ⟨sink, x.value⟩) p) := by
  induction arrivals generalizing p with
  | nil => rfl
  | cons x arrivals ih =>
      simp only [offerAll, Logged.value_bind, Logged.value_map, ih]
      rfl

namespace Collector.Call

/-- A call makes the offers of its load and nothing else. -/
theorem value_perform (r : Call σ) (p : Progress σ) :
    (r.perform p).value =
      ((Offer.trace r.offers p).map (·.outcome), Offer.settle r.offers p) := by
  cases r with
  | mk c sink load =>
      cases load with
      | sample s => rfl
      | row samples =>
          simp only [perform, offers, offerAll_eq_candidates, Candidate.value_offerAll,
            List.map_map]
          rfl
      | shards picks shards => exact Candidate.value_offerAll sink _ p

theorem value_performAll (calls : List (Call σ)) (p : Progress σ) :
    (performAll calls p).value =
      ((Offer.trace (calls.flatMap offers) p).map (·.outcome),
        Offer.settle (calls.flatMap offers) p) := by
  induction calls generalizing p with
  | nil => rfl
  | cons r calls ih =>
      simp only [performAll, Logged.value_bind, Logged.value_map, value_perform, ih,
        List.flatMap_cons, Offer.trace_append, Offer.settle_append, List.map_append]
      rfl

/-! ## The outcome law -/

open Admission

/-- The admissions of some calls, from the first sample to the last. -/
def history (calls : List (Call σ)) (p : Progress σ) : List (Admission σ) :=
  Offer.trace (calls.flatMap offers) p

/-- What holds of calls made one after another from `p` on. -/
structure OutcomeLaw (calls : List (Call σ)) (p : Progress σ) : Prop where
  /-- The history is that of the calls: it has their samples in their order, and
  the calls answer with its outcomes. -/
  offered : (history calls p).map (·.offer) = calls.flatMap offers
  performed : (performAll calls p).value =
    ((history calls p).map (·.outcome), Offer.settle (calls.flatMap offers) p)
  /-- What is offered goes by the fingerprint of what the sink would get. -/
  signed : ∀ a ∈ history calls p, a.fingerprint = a.offer.candidate.emission.fingerprint
  /-- What was marked at the start is a duplicate every time. -/
  marked : ∀ s ∈ p.ledger.marks,
    ∃ n, outcomesOf s (history calls p) = List.replicate n .duplicate
  /-- What was not is refused some times, and then, if a sink takes it, it is
  emitted once and a duplicate ever after. -/
  unmarked : ∀ s ∉ p.ledger.marks,
    ∃ n, outcomesOf s (history calls p) = List.replicate n .failed ∨
      ∃ m, outcomesOf s (history calls p) =
        List.replicate n .failed ++ .emitted :: List.replicate m .duplicate
  /-- After each admission the marks are those of the start and those accepted
  so far, and the gauge shows their number. -/
  marks : ∀ pre a post, history calls p = pre ++ a :: post →
    ∀ s, s ∈ a.after.ledger.marks ↔ s ∈ p.ledger.marks ∨ s ∈ accepted (pre ++ [a])
  wellFormed : ∀ a ∈ history calls p, a.after.ledger.WellFormed
  /-- A refusal leaves no trace in marks and gauge. -/
  failed : ∀ a ∈ history calls p, a.outcome = .failed →
    a.after.ledger.marks = a.before.ledger.marks ∧
      a.after.ledger.unique = a.before.ledger.unique
  /-- A sample is dropped exactly when one of its fingerprint was accepted
  before, or its fingerprint was marked from the start. -/
  dropped : ∀ pre a post, history calls p = pre ++ a :: post →
    (a.outcome = .duplicate ↔
      a.fingerprint ∈ p.ledger.marks ∨ a.fingerprint ∈ accepted pre)
  /-- What counts as emitted was taken by its sink, what counts as failed was refused by it, and
  no duplicate came so far. -/
  truthful : ∀ a ∈ history calls p, a.Truthful
  /-- Nothing is accepted twice, and nothing that was marked at the start. -/
  once : (accepted (history calls p)).Nodup
  fresh : ∀ s ∈ accepted (history calls p), s ∉ p.ledger.marks

/-- Collectors that share a ledger, called one after another, obey the outcome
law, whatever their policies, their sinks and the order of arrival. -/
theorem outcomeLaw_of_calls (calls : List (Call σ)) (p : Progress σ)
    (hp : p.ledger.WellFormed) : OutcomeLaw calls p where
  offered := Offer.map_offer_trace _ p
  performed := value_performAll calls p
  signed := by
    intro a ha
    obtain ⟨before, after, o, hoffers, rfl⟩ := Offer.exists_of_mem_trace ha
    have ho : o ∈ calls.flatMap offers := by
      rw [hoffers]
      exact List.mem_append_right _ List.mem_cons_self
    obtain ⟨r, -, ho⟩ := List.mem_flatMap.mp ho
    obtain ⟨s, hs⟩ := exists_of_mem_offers ho
    calc o.candidate.fingerprint
        = (r.collector.candidate s).value.fingerprint := by rw [hs]
      _ = o.candidate.emission.fingerprint := by rw [fingerprint_candidate, hs]
  marked := fun _ hs => Offer.outcomesOf_of_mem _ hs
  unmarked := fun _ hs => Offer.outcomesOf_of_not_mem _ hs
  marks := by
    intro pre a post h s
    obtain ⟨before, after, o, -, rfl, rfl⟩ := Offer.exists_of_trace_eq h
    have hmarks := Offer.mem_marks_settle s (before ++ [o]) p
    rw [Offer.settle_append, Offer.trace_append] at hmarks
    exact hmarks
  wellFormed := by
    intro a ha
    obtain ⟨before, after, o, -, rfl⟩ := Offer.exists_of_mem_trace ha
    exact Offer.make_wellFormed o (Offer.settle_wellFormed before hp)
  failed := by
    intro a ha hfailed
    obtain ⟨before, after, o, -, rfl⟩ := Offer.exists_of_mem_trace ha
    obtain ⟨ho, -⟩ | ⟨ho, -⟩ | ⟨-, -, e⟩ := Offer.make_cases o (Offer.settle before p)
    · exact absurd (ho.symm.trans hfailed) (by decide)
    · exact absurd (ho.symm.trans hfailed) (by decide)
    · rw [e]
      -- the gauge is set anew, to what it showed already
      exact ⟨rfl, (Offer.settle_wellFormed before hp).gauge.symm⟩
  dropped := by
    intro pre a post h
    obtain ⟨before, after, o, -, rfl, rfl⟩ := Offer.exists_of_trace_eq h
    have hmarks := Offer.mem_marks_settle o.candidate.fingerprint before p
    obtain ⟨ho, hm, -⟩ | ⟨ho, hm, -⟩ | ⟨ho, hm, -⟩ :=
      Offer.make_cases o (Offer.settle before p)
    · exact iff_of_true ho (hmarks.mp hm)
    · exact iff_of_false (by simp [ho]) (fun h => hm (hmarks.mpr h))
    · exact iff_of_false (by simp [ho]) (fun h => hm (hmarks.mpr h))
  truthful := fun _ => Offer.truthful_of_mem_trace
  once := Offer.nodup_accepted _ p
  fresh := fun _ hs hm => Offer.not_mem_accepted _ hm hs

/-- Two collectors, four copies of a sample and a sink that refuses the first:
the second copy takes its place, and the copies in the shards come too late. -/
theorem outcomeLaw_of_calls_reluctant :
    Ledger.empty.WellFormed ∧
      OutcomeLaw
        [⟨ofOptions {}, .reluctant (.sink "closed"), .row [{ name := "up" }, { name := "up" }]⟩,
          ⟨ofOptions { workers := 2 }, .reluctant (.sink "closed"),
            .shards [1] [[{ name := "up" }], [{ name := "up" }]]⟩]
        ⟨Ledger.empty, 1⟩ ∧
      (performAll
        [⟨ofOptions {}, .reluctant (.sink "closed"), .row [{ name := "up" }, { name := "up" }]⟩,
          ⟨ofOptions { workers := 2 }, .reluctant (.sink "closed"),
            .shards [1] [[{ name := "up" }], [{ name := "up" }]]⟩]
        ⟨Ledger.empty, 1⟩).value.1 = [.failed, .emitted, .duplicate, .duplicate] :=
  ⟨Ledger.empty_wellFormed, outcomeLaw_of_calls _ _ Ledger.empty_wellFormed,
    by decide +kernel⟩

end Collector.Call

end Scrape
