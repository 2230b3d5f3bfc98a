/-
Accounts of what became of the samples.

A collector tells the story of its samples four times over: in the tally that it
returns, in the counters of the ledger, in the gauge, and in the events that it
reports on the way.  Each is kept by another hand.  The tally is made from the
outcomes, the checks are counted before anything is decided, the duplicates when
a mark is found, the gauge follows the marks, which a refused sample sets and
takes away again, and an event is written wherever one of these things happens.

All four are read off one history, the admissions of the samples in the order in
which they were offered.  An admission adds one to the checks, adds to the
duplicates or to the marks or to neither, and reports one event or none
(`Admission.event?`); beside that there are the events of samples whose payload
is passed over, which have nothing to do with their outcome.  Every task of a
collector is the collection of a row (`Task.perform_eq`), so what holds of a row
holds of all of them.
-/
import Scrape.Proofs.Collector.Reluctance

namespace Scrape

variable {σ : Type}

/-! ## Events -/

namespace Event

/-- A payload was passed over. -/
def isIgnored : Event → Bool
  | payloadIgnored _ => true
  | _ => false

/-- A sample was seen before. -/
def isDuplicate : Event → Bool
  | duplicate .. => true
  | _ => false

/-- An event is of the level of a warning. -/
def isWarning (e : Event) : Bool := decide (e.level = .warn)

end Event

namespace Admission

/-- What the sink has to say against a sample. -/
def fault? (a : Admission σ) : Option Fault :=
  match (a.offer.sink.emit a.before.sink a.offer.candidate.emission).1 with
  | .ok () => none
  | .error fault => some fault

/-- What is reported of an admission, for a sample that was seen before or refused. -/
def event? (a : Admission σ) : Option Event :=
  match a.outcome with
  | .emitted => none
  | .duplicate => some (.duplicate a.offer.candidate.emission.name a.fingerprint)
  | .failed => a.fault?.map (.refused a.offer.candidate.emission.name)

end Admission

namespace Collector

/-- What is reported of a sample whose payload is passed over although payloads count. -/
def ignored? (c : Collector) (s : Sample) : Option Event :=
  if c.policy.payloads then
    match Payload.labels s.payload with
    | .ok _ => none
    | .error fault => some (.payloadIgnored fault)
  else none

theorem events_absorbPayload (c : Collector) (s : Sample) (labels : Labels) :
    (c.policy.absorbPayload labels s.payload).events = (c.ignored? s).toList := by
  rw [LabelPolicy.absorbPayload, ignored?]
  by_cases hp : c.policy.payloads
  · rw [if_pos hp, if_pos hp, Labels.absorbPayload]
    cases Payload.labels s.payload <;> rfl
  · rw [if_neg hp, if_neg hp]
    rfl

/-- To put the labels of a sample together reports its payload or nothing. -/
theorem events_candidate (c : Collector) (s : Sample) :
    (c.candidate s).events = (c.ignored? s).toList := by
  rw [candidate, Logged.events_bind, Logged.events_pure, List.append_nil, LabelPolicy.join]
  by_cases hu : c.policy.userFirst
  · rw [if_pos hu]
    exact c.events_absorbPayload s _
  · rw [if_neg hu, Logged.events_bind, Logged.events_pure, List.append_nil]
    exact c.events_absorbPayload s _

theorem isIgnored_of_ignored? {c : Collector} {s : Sample} {e : Event}
    (h : c.ignored? s = some e) : e.isIgnored = true := by
  rw [ignored?] at h
  split at h
  · split at h
    · exact nomatch h
    · cases h
      rfl
  · exact nomatch h

end Collector

namespace Offer

open Admission (accepted)

/-! ## One admission -/

theorem events_offer (o : Offer σ) (p : Progress σ) :
    (o.candidate.offer o.sink p).events = (o.make p).event?.toList := by
  obtain ⟨-, e⟩ | ⟨state, -, hs, e⟩ | ⟨fault, state, -, hs, e⟩ := o.candidate.offer_cases o.sink p
  · simp [make, Admission.event?, Admission.fingerprint, e]
  · simp [make, Admission.event?, e]
  · simp [make, Admission.event?, Admission.fault?, e, hs]

/-- A refused sample is reported with what the sink has against it. -/
theorem event?_of_failed {o : Offer σ} {p : Progress σ} (h : (o.make p).outcome = .failed) :
    ∃ fault, (o.make p).fault? = some fault ∧
      (o.make p).event? = some (.refused o.candidate.emission.name fault) := by
  obtain ⟨-, e⟩ | ⟨state, -, hs, e⟩ | ⟨fault, state, -, hs, e⟩ := o.candidate.offer_cases o.sink p
  · simp [make, e] at h
  · simp [make, e] at h
  · exact ⟨fault, by simp [make, Admission.fault?, hs],
      by simp [make, Admission.event?, Admission.fault?, e, hs]⟩

theorem checks_make (o : Offer σ) (p : Progress σ) :
    (o.make p).after.ledger.checks = p.ledger.checks + 1 := by
  obtain ⟨-, -, e⟩ | ⟨-, -, e⟩ | ⟨-, -, e⟩ := o.make_cases p
  · rw [e]
    rfl
  · rw [e]
    rfl
  · rw [e]
    rfl

theorem duplicates_make (o : Offer σ) (p : Progress σ) :
    (o.make p).after.ledger.duplicates =
      p.ledger.duplicates + UInt64.ofNat (if (o.make p).outcome = .duplicate then 1 else 0) := by
  obtain ⟨ho, -, e⟩ | ⟨ho, -, e⟩ | ⟨ho, -, e⟩ := o.make_cases p
  · rw [e, ho]
    rfl
  · rw [e, ho]
    exact (UInt64.add_zero _).symm
  · rw [e, ho]
    exact (UInt64.add_zero _).symm

theorem size_make (o : Offer σ) (p : Progress σ) :
    (o.make p).after.ledger.size =
      p.ledger.size + if (o.make p).outcome = .emitted then 1 else 0 := by
  obtain ⟨ho, -, e⟩ | ⟨ho, -, e⟩ | ⟨ho, -, e⟩ := o.make_cases p
  · rw [e, ho]
    rfl
  · rw [e, ho]
    rfl
  · rw [e, ho]
    rfl

/-! ## Admissions in a row -/

theorem checks_settle (offers : List (Offer σ)) (p : Progress σ) :
    (settle offers p).ledger.checks = p.ledger.checks + UInt64.ofNat offers.length := by
  induction offers generalizing p with
  | nil => exact (UInt64.add_zero _).symm
  | cons o offers ih =>
      rw [settle, List.foldl_cons, ← settle, ih, checks_make, Ledger.add_one_add_ofNat]
      rfl

theorem duplicates_settle (offers : List (Offer σ)) (p : Progress σ) :
    (settle offers p).ledger.duplicates = p.ledger.duplicates +
      UInt64.ofNat (((trace offers p).map (·.outcome)).count .duplicate) := by
  induction offers generalizing p with
  | nil => exact (UInt64.add_zero _).symm
  | cons o offers ih =>
      rw [settle, List.foldl_cons, ← settle, ih, duplicates_make, trace, List.map_cons,
        List.count_cons, Nat.add_comm, UInt64.ofNat_add, UInt64.add_assoc]
      simp only [beq_iff_eq]

theorem size_settle (offers : List (Offer σ)) (p : Progress σ) :
    (settle offers p).ledger.size =
      p.ledger.size + ((trace offers p).map (·.outcome)).count .emitted := by
  induction offers generalizing p with
  | nil => rfl
  | cons o offers ih =>
      rw [settle, List.foldl_cons, ← settle, ih, size_make, trace, List.map_cons,
        List.count_cons]
      simp only [beq_iff_eq]
      omega

/-- Every duplicate and every refusal is reported once. -/
theorem countP_event? (offers : List (Offer σ)) (p : Progress σ) :
    ((trace offers p).filterMap Admission.event?).countP Event.isDuplicate =
        ((trace offers p).map (·.outcome)).count .duplicate ∧
      ((trace offers p).filterMap Admission.event?).countP Event.isWarning =
        ((trace offers p).map (·.outcome)).count .failed := by
  induction offers generalizing p with
  | nil => exact ⟨rfl, rfl⟩
  | cons o offers ih =>
      obtain ⟨hduplicate, hfailed⟩ := ih (o.make p).after
      rw [trace, List.map_cons, List.count_cons, List.count_cons]
      obtain ⟨ho, -⟩ | ⟨ho, -⟩ | ⟨ho, -⟩ := o.make_cases p
      · have he : (o.make p).event? = some (.duplicate o.candidate.emission.name
            (o.make p).fingerprint) := by
          rw [Admission.event?, ho]
          rfl
        rw [List.filterMap_cons_some he, List.countP_cons, List.countP_cons, hduplicate, hfailed,
          ho]
        exact ⟨rfl, rfl⟩
      · have he : (o.make p).event? = none := by rw [Admission.event?, ho]
        rw [List.filterMap_cons_none he, hduplicate, hfailed, ho]
        exact ⟨rfl, rfl⟩
      · obtain ⟨fault, -, he⟩ := event?_of_failed ho
        rw [List.filterMap_cons_some he, List.countP_cons, List.countP_cons, hduplicate, hfailed,
          ho]
        exact ⟨rfl, rfl⟩

end Offer

/-! ## The events of a row -/

theorem Admission.isIgnored_event? {a : Admission σ} {e : Event} (h : a.event? = some e) :
    e.isIgnored = false := by
  rw [event?] at h
  split at h
  · exact nomatch h
  · cases h
    rfl
  · obtain ⟨fault, -, rfl⟩ := Option.map_eq_some_iff.mp h
    rfl

/-- What is reported of candidates that bring nothing but payloads passed over: these,
and beside them one event or none for each admission. -/
theorem Candidate.events_offerAll (sink : Sink σ) {arrivals : List (Logged Candidate)}
    (h : ∀ x ∈ arrivals, ∀ e ∈ x.events, e.isIgnored = true) (p : Progress σ) :
    (offerAll sink arrivals p).events.filter Event.isIgnored = arrivals.flatMap (·.events) ∧
      (offerAll sink arrivals p).events.filter (! ·.isIgnored) =
        (Offer.trace (arrivals.map fun x => ⟨sink, x.value⟩) p).filterMap Admission.event? := by
  induction arrivals generalizing p with
  | nil => exact ⟨rfl, rfl⟩
  | cons x arrivals ih =>
      obtain ⟨hx, harrivals⟩ := List.forall_mem_cons.mp h
      obtain ⟨hignored, hothers⟩ := ih harrivals (Offer.make ⟨sink, x.value⟩ p).after
      have hevents : (offerAll sink (x :: arrivals) p).events =
          x.events ++ (Offer.make ⟨sink, x.value⟩ p).event?.toList ++
            (offerAll sink arrivals (Offer.make ⟨sink, x.value⟩ p).after).events := by
        rw [← Offer.events_offer]
        simp only [offerAll, Logged.events_bind, Logged.events_map, List.append_assoc]
        rfl
      have hevent : ∀ e ∈ (Offer.make ⟨sink, x.value⟩ p).event?.toList, e.isIgnored = false :=
        fun e he => Admission.isIgnored_event? (Option.mem_toList.mp he)
      rw [hevents, List.filter_append, List.filter_append, List.filter_append, List.filter_append,
        hignored, hothers, List.filter_eq_self.mpr hx, List.flatMap_cons, List.map_cons,
        Offer.trace]
      constructor
      · rw [List.filter_eq_nil_iff.mpr fun e he => by simp [hevent e he], List.append_nil]
      · rw [List.filter_eq_nil_iff.mpr fun e he => by simp [hx e he], List.nil_append,
          List.filter_eq_self.mpr fun e he => by simp [hevent e he]]
        cases he : (Offer.make ⟨sink, x.value⟩ p).event? with
        | none => rw [List.filterMap_cons_none he]; rfl
        | some e => rw [List.filterMap_cons_some he]; rfl

/-- What the sinks of some admissions are asked, beside the duplicates, makes up all. -/
theorem Admission.length_asked_add (admissions : List (Admission σ)) :
    (asked admissions).length + (admissions.map (·.outcome)).count .duplicate =
      admissions.length := by
  induction admissions with
  | nil => rfl
  | cons a admissions ih =>
      have hcons := congrArg List.length (asked_append [a] admissions)
      rw [List.singleton_append, List.length_append] at hcons
      rw [List.map_cons, List.count_cons, hcons, List.length_cons, ← ih]
      cases ho : a.outcome <;> simp [asked, ho] <;> omega

/-- An event of one kind is not of another, so all of its kind are left when the payloads
passed over are left out. -/
theorem Event.countP_filter_not_isIgnored {kind : Event → Bool}
    (h : ∀ e, kind e = true → e.isIgnored = false) (events : List Event) :
    (events.filter (! ·.isIgnored)).countP kind = events.countP kind := by
  rw [List.countP_filter]
  refine List.countP_congr fun e _ => ?_
  rw [Bool.and_eq_true, and_iff_left_iff_imp]
  intro hkind
  rw [h e hkind]
  rfl

theorem Event.isIgnored_of_isDuplicate (e : Event) (h : e.isDuplicate = true) :
    e.isIgnored = false := by
  cases e with
  | duplicate => rfl
  | _ => exact nomatch h

theorem Event.isIgnored_of_isWarning (e : Event) (h : e.isWarning = true) :
    e.isIgnored = false := by
  cases e with
  | refused => rfl
  | _ => exact nomatch h

namespace Collector

/-! ## Tasks -/

/-- What a collector is asked to do. -/
inductive Task where
  /-- To hand one sample to a sink. -/
  | offer (s : Sample)
  /-- To collect samples in a row. -/
  | collect (samples : List Sample)
  /-- To collect shards whose candidates arrive in the order of the picks. -/
  | collectShards (picks : List Nat) (shards : List (List Sample))
  /-- The same for a scrape of its own. -/
  | scrape (picks : List Nat) (shards : List (List Sample))

namespace Task

variable (c : Collector) (sink : Sink σ)

/-- Does a task.  One sample has a tally as well. -/
def perform (p : Progress σ) : Task → Logged (Tally × Progress σ)
  | .offer s => Prod.map (fun o => Tally.ofOutcomes [o]) id <$> c.offer sink s p
  | .collect samples => c.collect sink samples p
  | .collectShards picks shards => c.collectShards sink picks shards p
  | .scrape picks shards => c.scrape sink picks shards p

/-- The samples of a task. -/
def load : Task → List Sample
  | .offer s => [s]
  | .collect samples => samples
  | .collectShards _ shards | .scrape _ shards => shards.flatten

/-- The samples of a task in the order in which they are offered. -/
def samples : Task → List Sample
  | .offer s => [s]
  | .collect samples => samples
  | .collectShards picks shards | .scrape picks shards =>
      Delivery.deliver picks (c.workloads shards)

/-- How things stand when the first sample is offered. -/
def opening (p : Progress σ) : Task → Progress σ
  | .offer _ | .collect _ | .collectShards .. => p
  | .scrape .. => { p with ledger := p.ledger.clear }

/-- What is reported when all is done. -/
def closing (tally : Tally) : Task → List Event
  | .offer _ | .collect _ | .collectShards .. => []
  | .scrape .. => [.finished tally]

/-- What is offered in a task, in the order in which it is offered. -/
def offers (t : Task) : List (Offer σ) :=
  (t.samples c).map fun s => ⟨sink, (c.candidate s).value⟩

/-- The admissions of the samples of a task. -/
def history (t : Task) (p : Progress σ) : List (Admission σ) :=
  Offer.trace (t.offers c sink) (t.opening p)

/-- Whatever the task, its samples are collected in a row. -/
theorem perform_eq (t : Task) (p : Progress σ) :
    t.perform c sink p =
      ⟨(c.collect sink (t.samples c) (t.opening p)).value,
        (c.collect sink (t.samples c) (t.opening p)).events ++
          t.closing (c.collect sink (t.samples c) (t.opening p)).value.1⟩ := by
  cases t with
  | offer s =>
      have hevents : (c.collect sink [s] p).events = (c.offer sink s p).events :=
        List.append_nil _
      rw [closing, List.append_nil, samples, opening, hevents]
      rfl
  | collect samples =>
      rw [closing, List.append_nil]
      rfl
  | collectShards picks shards =>
      rw [closing, List.append_nil]
      exact c.collectShards_eq_collect sink picks shards p
  | scrape picks shards =>
      rw [perform, Collector.scrape, collectShards_eq_collect]
      rfl

theorem samples_perm (t : Task) : (t.samples c).Perm t.load := by
  cases t with
  | offer s => exact .refl _
  | collect samples => exact .refl _
  | collectShards picks shards =>
      rw [load, ← flatten_workloads c]
      exact Delivery.deliver_perm picks _
  | scrape picks shards =>
      rw [load, ← flatten_workloads c]
      exact Delivery.deliver_perm picks _

theorem length_offers (t : Task) : (t.offers c sink).length = t.load.length := by
  rw [offers, List.length_map, (t.samples_perm c).length_eq]

theorem length_history (t : Task) (p : Progress σ) :
    (t.history c sink p).length = t.load.length := by
  rw [← t.length_offers c sink, history]
  conv => rhs; rw [← Offer.map_offer_trace (t.offers c sink) (t.opening p)]
  rw [List.length_map]

theorem value_perform (t : Task) (p : Progress σ) :
    (t.perform c sink p).value =
      (Tally.ofOutcomes ((t.history c sink p).map (·.outcome)),
        Offer.settle (t.offers c sink) (t.opening p)) := by
  have hrow := Call.value_perform ⟨c, sink, .row (t.samples c)⟩ (t.opening p)
  rw [perform_eq, Collector.collect, Logged.value_map]
  exact congrArg (Prod.map Tally.ofOutcomes id) hrow

/-- Payloads passed over are reported sample by sample, everything else admission by
admission. -/
theorem events_perform (t : Task) (p : Progress σ) :
    (t.perform c sink p).events.filter Event.isIgnored = (t.samples c).filterMap c.ignored? ∧
      (t.perform c sink p).events.filter (! ·.isIgnored) =
        (t.history c sink p).filterMap Admission.event? ++
          t.closing (t.perform c sink p).value.1 := by
  have hmaking : ∀ x ∈ (t.samples c).map c.candidate, ∀ e ∈ x.events, e.isIgnored = true := by
    intro x hx e he
    obtain ⟨s, -, rfl⟩ := List.mem_map.mp hx
    rw [events_candidate, Option.mem_toList] at he
    exact isIgnored_of_ignored? he
  obtain ⟨hignored, hothers⟩ := Candidate.events_offerAll sink hmaking (t.opening p)
  have hclosing (tally : Tally) : ∀ e ∈ t.closing tally, e.isIgnored = false := by
    intro e he
    cases t with
    | scrape picks shards =>
        rw [List.mem_singleton.mp he]
        rfl
    | _ => exact absurd he List.not_mem_nil
  rw [perform_eq, Collector.collect, Logged.events_map, offerAll_eq_candidates,
    List.filter_append, List.filter_append, hignored, hothers, List.map_map]
  constructor
  · rw [List.filter_eq_nil_iff.mpr fun e he => by simp [hclosing _ e he], List.append_nil,
      List.flatMap_map]
    simp only [events_candidate]
    exact (List.filterMap_eq_flatMap_toList _ _).symm
  · rw [List.filter_eq_self.mpr fun e he => by simp [hclosing _ e he]]
    rfl

theorem countP_closing (t : Task) (tally : Tally) :
    (t.closing tally).countP Event.isDuplicate = 0 ∧
      (t.closing tally).countP Event.isWarning = 0 := by
  cases t <;> exact ⟨rfl, rfl⟩

/-- The sink is asked for what it took and for what it refused. -/
theorem asked_perform (t : Task) (p : Progress σ) :
    (t.perform c sink.recorded ⟨p.ledger, p.sink, []⟩).value.2.sink.2.reverse =
      Admission.asked (t.history c sink p) := by
  have hopening : t.opening (⟨p.ledger, p.sink, []⟩ : Progress (σ × List Emission)) =
      ⟨(t.opening p).ledger, (t.opening p).sink, []⟩ := by
    cases t <;> rfl
  have hrow := asked_history_row c sink (t.samples c) (t.opening p)
  rw [Call.history, List.flatMap_singleton] at hrow
  rw [perform_eq, hopening]
  exact hrow

/-- Workers and caller who report in turns report what the samples in the order of arrival
make a row report. -/
theorem turns_perform {t : Task} {shards : List (List Sample)} {p : Progress σ}
    {turns : List Turn} (hdone : (c.collecting sink shards (t.opening p) turns).done)
    (hsent : c.sentIn sink shards (t.opening p) turns = t.samples c) :
    (c.collecting sink shards (t.opening p) turns).result = (t.perform c sink p).value ∧
      ((c.collecting sink shards (t.opening p) turns).reported ++
        t.closing (t.perform c sink p).value.1).Perm (t.perform c sink p).events := by
  obtain ⟨-, hresult, hreported⟩ :=
    ((Pipeline.start_underway c sink shards (t.opening p)).run turns).of_done hdone
  rw [List.nil_append, show (Pipeline.sent _ _ _ _).map (·.2) = _ from hsent] at hresult hreported
  rw [perform_eq]
  exact ⟨hresult, hreported.symm.append_right _⟩

/-- The tally has the numbers of the outcomes as long as there are not too many samples. -/
theorem tally_perform (t : Task) (p : Progress σ) (h : t.load.length < 2 ^ 64) :
    (t.perform c sink p).value.1.emitted.toNat =
        ((t.history c sink p).map (·.outcome)).count .emitted ∧
      (t.perform c sink p).value.1.duplicates.toNat =
        ((t.history c sink p).map (·.outcome)).count .duplicate ∧
      (t.perform c sink p).value.1.failed.toNat =
        ((t.history c sink p).map (·.outcome)).count .failed := by
  have hle (o : Outcome) : ((t.history c sink p).map (·.outcome)).count o < 2 ^ 64 := by
    refine Nat.lt_of_le_of_lt List.count_le_length ?_
    rw [List.length_map, length_history]
    exact h
  rw [value_perform, Tally.ofOutcomes_eq]
  exact ⟨UInt64.toNat_ofNat_of_lt' (hle .emitted), UInt64.toNat_ofNat_of_lt' (hle .duplicate),
    UInt64.toNat_ofNat_of_lt' (hle .failed)⟩

end Task

end Collector

/-- A ledger whose counters and gauge have room for `n` more samples. -/
structure Ledger.Room (l : Ledger) (n : Nat) : Prop where
  checks : l.checks.toNat + n < 2 ^ 64
  duplicates : l.duplicates.toNat + n < 2 ^ 64
  size : l.size + n < 2 ^ 63

namespace Collector

/-! ## The accounts of a task -/

/-- How a tally, a ledger and events account for the samples of a task, whose history it is. -/
structure AccountLaw (c : Collector) (sink : Sink σ) (t : Task) (p : Progress σ)
    (history : List (Admission σ)) (tally : Tally) (after : Ledger) (events : List Event) :
    Prop where
  /-- Every sample is offered once, in the order in which it arrives. -/
  offered : history.map (·.offer) = (t.samples c).map fun s => ⟨sink, (c.candidate s).value⟩
  arrived : (t.samples c).Perm t.load
  /-- The outcomes are what the sink made of the samples. -/
  truthful : ∀ a ∈ history, a.Truthful
  /-- The tally has the numbers of the outcomes, and they make up all samples. -/
  emitted : tally.emitted.toNat = (history.map (·.outcome)).count .emitted
  duplicates : tally.duplicates.toNat = (history.map (·.outcome)).count .duplicate
  failed : tally.failed.toNat = (history.map (·.outcome)).count .failed
  total : tally.emitted.toNat + tally.duplicates.toNat + tally.failed.toNat = t.load.length
  /-- The sink is asked to take what it took and what it refused, and nothing else. -/
  asked : (t.perform c sink.recorded ⟨p.ledger, p.sink, []⟩).value.2.sink.2.reverse =
    Admission.asked history
  length_asked : (Admission.asked history).length = tally.emitted.toNat + tally.failed.toNat
  /-- One check for each sample, a refused one included. -/
  checks : after.checks.toNat = p.ledger.checks.toNat + t.load.length
  hits : after.duplicates.toNat = p.ledger.duplicates.toNat + tally.duplicates.toNat
  /-- The gauge shows what was emitted beside what it showed when the first sample was
  offered; and that is nothing in a scrape. -/
  unique : after.unique.toInt = (t.opening p).ledger.unique.toInt + tally.emitted.toNat
  unique_scrape : ∀ picks shards, t = .scrape picks shards →
    after.unique.toInt = tally.emitted.toNat
  /-- The samples whose payload is passed over are reported, whatever becomes of them. -/
  ignored : events.filter Event.isIgnored = (t.samples c).filterMap c.ignored?
  /-- All else that is reported are the duplicates and the refused samples, one event each
  in the order of their admissions, and in the end the tally of a scrape. -/
  others : events.filter (! ·.isIgnored) =
    history.filterMap Admission.event? ++ t.closing tally
  refused : ∀ a ∈ history, a.outcome = .failed → ∃ fault, a.fault? = some fault ∧
    a.event? = some (.refused a.offer.candidate.emission.name fault)
  reported_duplicates : events.countP Event.isDuplicate = tally.duplicates.toNat
  warnings : events.countP Event.isWarning = tally.failed.toNat
  closing : t.closing tally <:+ events
  /-- Where workers and caller take turns, they come to the same and report the same, in
  some order; and whatever their turns, the order of arrival is one of some picks. -/
  turns : ∀ picks shards, t = .collectShards picks shards ∨ t = .scrape picks shards →
    ∀ turns, (c.collecting sink shards (t.opening p) turns).done →
      c.sentIn sink shards (t.opening p) turns = t.samples c →
      (c.collecting sink shards (t.opening p) turns).result = (t.perform c sink p).value ∧
      ((c.collecting sink shards (t.opening p) turns).reported ++ t.closing tally).Perm events
  picked : ∀ shards turns, (c.collecting sink shards (t.opening p) turns).done →
    ∃ picks, c.sentIn sink shards (t.opening p) turns =
      (Task.collectShards picks shards).samples c

end Collector

end Scrape
