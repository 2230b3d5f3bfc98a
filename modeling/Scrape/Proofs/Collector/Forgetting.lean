/-
Scrapes that do not look back.

A ledger found in use carries marks of an earlier scrape: those of samples that
were emitted, and those that were left behind by a sample that was prepared and
never offered.  Its counters say how long it has been in use.  A scrape clears
the marks first, and from then on two ledgers, whatever became of them before,
differ in their counters alone.

Nothing that happens to a sample looks at a counter.  So progresses that differ
in nothing else (`Progress.Alike`) stay so whatever is offered, and what is seen
of the admissions on the way is the same: what was offered and what came of it,
and how the sink stood before and after (`Admission.seen`).  The same holds of
workers and caller turn by turn.  Of the counters each run adds as much to its
own.  No turn does more to a counter than to add one (`Ledger.Ticks`), so unless
a counter overflows it is at no point of a run below what it was at first.
-/
import Scrape.Proofs.Collector.Accounts

namespace Scrape

open Admission (accepted asked)

variable {σ : Type}

/-- Progresses that differ in the counters of their ledgers and in nothing else. -/
structure Progress.Alike (p q : Progress σ) : Prop where
  marks : p.ledger.marks = q.ledger.marks
  unique : p.ledger.unique = q.ledger.unique
  sink : p.sink = q.sink

/-- Cleared ledgers are alike, whatever they were. -/
theorem Ledger.clear_alike (l l' : Ledger) (state : σ) :
    Progress.Alike ⟨l.clear, state⟩ ⟨l'.clear, state⟩ :=
  ⟨rfl, rfl, rfl⟩

/-- From the one ledger to the other each counter has stayed or has gone up by one. -/
structure Ledger.Ticks (l l' : Ledger) : Prop where
  checks : l'.checks = l.checks ∨ l'.checks = l.checks + 1
  duplicates : l'.duplicates = l.duplicates ∨ l'.duplicates = l.duplicates + 1

/-! ## Offers -/

namespace Candidate

variable {p q : Progress σ}

/-- An offer does not look at the counters. -/
theorem offer_alike (h : p.Alike q) (d : Candidate) (sink : Sink σ) :
    (d.offer sink p).value.1 = (d.offer sink q).value.1 ∧
      (d.offer sink p).events = (d.offer sink q).events ∧
      (d.offer sink p).value.2.Alike (d.offer sink q).value.2 := by
  obtain ⟨hm, e⟩ | ⟨state, hm, hs, e⟩ | ⟨fault, state, hm, hs, e⟩ := d.offer_cases sink p
  · have hq : d.offer sink q = _ := offer_of_mem (h.marks ▸ hm)
    rw [e, hq]
    exact ⟨rfl, rfl, h.marks, h.unique, h.sink⟩
  · have hq := offer_of_ok (h.marks ▸ hm) (h.sink ▸ hs)
    rw [e, hq]
    exact ⟨rfl, rfl, by simp [h.marks], by simp [h.marks], rfl⟩
  · have hq := offer_of_error (h.marks ▸ hm) (h.sink ▸ hs)
    rw [e, hq]
    exact ⟨rfl, rfl, by simp [h.marks], by simp [h.marks], rfl⟩

theorem offerAll_alike (h : p.Alike q) (sink : Sink σ) (arrivals : List (Logged Candidate)) :
    (offerAll sink arrivals p).value.1 = (offerAll sink arrivals q).value.1 ∧
      (offerAll sink arrivals p).events = (offerAll sink arrivals q).events ∧
      (offerAll sink arrivals p).value.2.Alike (offerAll sink arrivals q).value.2 := by
  induction arrivals generalizing p q with
  | nil => exact ⟨rfl, rfl, h⟩
  | cons x arrivals ih =>
      obtain ⟨houtcome, hevents, hafter⟩ := x.value.offer_alike h sink
      obtain ⟨houtcomes, hmore, hend⟩ := ih hafter
      simp only [offerAll, Logged.value_bind, Logged.value_map, Logged.events_bind,
        Logged.events_map, Prod.map_fst, Prod.map_snd, id, houtcome, houtcomes, hevents, hmore]
      exact ⟨trivial, trivial, hend⟩

end Candidate

namespace Admission

/-- What is seen of an admission beside the ledger: what was offered, what came of it,
and how the sink stood before and after. -/
def seen (a : Admission σ) : Offer σ × Outcome × σ × σ :=
  (a.offer, a.outcome, a.before.sink, a.after.sink)

end Admission

theorem Offer.trace_alike {p q : Progress σ} (h : p.Alike q) (offers : List (Offer σ)) :
    (trace offers p).map Admission.seen = (trace offers q).map Admission.seen := by
  induction offers generalizing p q with
  | nil => rfl
  | cons o offers ih =>
      obtain ⟨houtcome, -, hafter⟩ := o.candidate.offer_alike h o.sink
      have hseen : (o.make p).seen = (o.make q).seen :=
        congrArg (o, ·) (Prod.ext houtcome (Prod.ext h.sink hafter.sink))
      rw [trace, trace, List.map_cons, List.map_cons, hseen]
      exact congrArg _ (ih hafter)

theorem Offer.make_ticks (o : Offer σ) (p : Progress σ) :
    p.ledger.Ticks (o.make p).after.ledger where
  checks := .inr (checks_make o p)
  duplicates := by
    rw [duplicates_make]
    by_cases ho : (o.make p).outcome = .duplicate
    · rw [if_pos ho]
      exact .inr rfl
    · rw [if_neg ho]
      exact .inl (UInt64.add_zero _)

namespace Collector

/-! ## Turns of workers and caller -/

namespace Pipeline

/-- Pipelines whose ledgers differ in their counters and which differ in nothing else. -/
structure Alike (w w' : Pipeline σ) : Prop where
  loads : w.loads = w'.loads
  channel : w.channel = w'.channel
  outcomes : w.outcomes = w'.outcomes
  reported : w.reported = w'.reported
  progress : w.progress.Alike w'.progress

/-- How many outcomes a pipeline has, and how many of them are duplicates, is what it has
added to the counters of the ledger `l`. -/
structure Counted (l : Ledger) (w : Pipeline σ) : Prop where
  checks : w.progress.ledger.checks = l.checks + UInt64.ofNat w.outcomes.length
  duplicates : w.progress.ledger.duplicates =
    l.duplicates + UInt64.ofNat (w.outcomes.count .duplicate)

variable {c : Collector} {sink : Sink σ} {w w' : Pipeline σ} {l : Ledger}

theorem Alike.step (h : w.Alike w') (turn : Turn) :
    (w.step c sink turn).Alike (w'.step c sink turn) := by
  cases turn with
  | send i =>
      simp only [Pipeline.step, ← h.loads]
      split
      · exact ⟨rfl, by simp [h.channel], h.outcomes, by simp [h.reported], h.progress⟩
      · exact h
  | receive =>
      simp only [Pipeline.step, ← h.channel]
      split
      next d channel _ =>
        obtain ⟨houtcome, hevents, hafter⟩ := d.offer_alike h.progress sink
        exact ⟨h.loads, rfl, by rw [houtcome, h.outcomes], by rw [hevents, h.reported], hafter⟩
      · exact h

theorem Alike.run (h : w.Alike w') (turns : List Turn) :
    (w.run c sink turns).Alike (w'.run c sink turns) := by
  induction turns generalizing w w' with
  | nil => exact h
  | cons turn turns ih => exact ih (h.step turn)

theorem step_ticks (w : Pipeline σ) (turn : Turn) :
    w.progress.ledger.Ticks (w.step c sink turn).progress.ledger := by
  obtain ⟨i, s, rest, rfl, hload, -⟩ | ⟨d, channel, rfl, hchannel, -⟩ | ⟨hstep, -⟩ :=
    step_cases c sink w turn
  · rw [step_send c sink hload]
    exact ⟨.inl rfl, .inl rfl⟩
  · rw [step_receive c sink hchannel]
    exact Offer.make_ticks ⟨sink, d⟩ w.progress
  · rw [hstep]
    exact ⟨.inl rfl, .inl rfl⟩

theorem Counted.step (h : w.Counted l) (turn : Turn) : (w.step c sink turn).Counted l := by
  obtain ⟨i, s, rest, rfl, hload, -⟩ | ⟨d, channel, rfl, hchannel, -⟩ | ⟨hstep, -⟩ :=
    step_cases c sink w turn
  · rw [step_send c sink hload]
    exact ⟨h.checks, h.duplicates⟩
  · rw [step_receive c sink hchannel]
    have hchecks := Offer.checks_make ⟨sink, d⟩ w.progress
    have hduplicates := Offer.duplicates_make ⟨sink, d⟩ w.progress
    constructor
    case checks =>
      refine hchecks.trans ?_
      rw [h.checks, List.length_cons, Ledger.add_ofNat_succ]
    case duplicates =>
      refine hduplicates.trans ?_
      rw [h.duplicates, List.count_cons, UInt64.ofNat_add, UInt64.add_assoc]
      simp only [beq_iff_eq]
      rfl
  · rw [hstep]
    exact h

theorem Counted.run (h : w.Counted l) (turns : List Turn) :
    (w.run c sink turns).Counted l := by
  induction turns generalizing w with
  | nil => exact h
  | cons turn turns ih => exact ih (h.step turn)

/-- How many samples are left to send and to offer, and how many were offered. -/
def held (w : Pipeline σ) : Nat :=
  w.loads.flatten.length + w.channel.length + w.outcomes.length

theorem held_step (w : Pipeline σ) (turn : Turn) : (w.step c sink turn).held = w.held := by
  obtain ⟨i, s, rest, rfl, hload, -⟩ | ⟨d, channel, rfl, hchannel, -⟩ | ⟨hstep, -⟩ :=
    step_cases c sink w turn
  · have hlength := (Delivery.flatten_set_perm hload).length_eq
    rw [List.length_cons] at hlength
    rw [step_send c sink hload]
    simp only [held, List.length_append, List.length_singleton]
    omega
  · rw [step_receive c sink hchannel, held, held, hchannel]
    simp only [List.length_cons]
    omega
  · rw [hstep]

theorem held_run (w : Pipeline σ) (turns : List Turn) : (w.run c sink turns).held = w.held := by
  induction turns generalizing w with
  | nil => rfl
  | cons turn turns ih => exact (ih _).trans (w.held_step turn)

end Pipeline

/-- No more is offered than there is in the shards. -/
theorem length_outcomes_collecting_le (c : Collector) (sink : Sink σ)
    (shards : List (List Sample)) (p : Progress σ) (turns : List Turn) :
    (c.collecting sink shards p turns).outcomes.length ≤ shards.flatten.length := by
  have hheld : (c.collecting sink shards p turns).held = (Pipeline.start c shards p).held :=
    (Pipeline.start c shards p).held_run turns
  have hstart : (Pipeline.start c shards p).held = shards.flatten.length := by
    rw [← flatten_workloads c]
    rfl
  rw [hstart, Pipeline.held] at hheld
  exact Nat.le.intro ((Nat.add_comm _ _).trans hheld)

/-! ## Two scrapes -/

theorem scrape_eq (c : Collector) (sink : Sink σ) (picks : List Nat)
    (shards : List (List Sample)) (l : Ledger) (state : σ) :
    c.scrape sink picks shards ⟨l, state⟩ =
      ⟨(Tally.ofOutcomes (c.offerShards sink picks shards ⟨l.clear, state⟩).value.1,
          (c.offerShards sink picks shards ⟨l.clear, state⟩).value.2),
        (c.offerShards sink picks shards ⟨l.clear, state⟩).events ++
          [.finished (Tally.ofOutcomes
            (c.offerShards sink picks shards ⟨l.clear, state⟩).value.1)]⟩ :=
  rfl

theorem offerShards_alike (c : Collector) (sink : Sink σ) (picks : List Nat)
    (shards : List (List Sample)) {p q : Progress σ} (h : p.Alike q) :
    (c.offerShards sink picks shards p).value.1 = (c.offerShards sink picks shards q).value.1 ∧
      (c.offerShards sink picks shards p).events = (c.offerShards sink picks shards q).events ∧
      (c.offerShards sink picks shards p).value.2.Alike
        (c.offerShards sink picks shards q).value.2 :=
  Candidate.offerAll_alike h sink _

/-- The outcomes and the end of the shards of a scrape are those of its history. -/
theorem value_offerShards_clear (c : Collector) (sink : Sink σ) (picks : List Nat)
    (shards : List (List Sample)) (l : Ledger) (state : σ) :
    (c.offerShards sink picks shards ⟨l.clear, state⟩).value =
      (((Task.scrape picks shards).history c sink ⟨l, state⟩).map (·.outcome),
        Offer.settle ((Task.scrape picks shards).offers c sink) ⟨l.clear, state⟩) := by
  rw [offerShards, Candidate.value_offerAll, streams, Delivery.deliver_map, List.map_map]
  rfl

/-- What two scrapes of the same shards have in common, one on the ledger `l` and one on
`l'`, with the sink in one state and one order of arrival.  Each of the two takes the part
of `m` where it is said of both. -/
structure ForgettingLaw (c : Collector) (sink : Sink σ) (picks : List Nat)
    (shards : List (List Sample)) (state : σ) (l l' : Ledger) : Prop where
  /-- The same is offered, it meets the same fate, and the sink goes through the same
  states. -/
  seen : ((Task.scrape picks shards).history c sink ⟨l, state⟩).map Admission.seen =
    ((Task.scrape picks shards).history c sink ⟨l', state⟩).map Admission.seen
  outcomes : (c.offerShards sink picks shards ⟨l.clear, state⟩).value.1 =
    (c.offerShards sink picks shards ⟨l'.clear, state⟩).value.1
  /-- The sink is asked to take the same emissions in the same order. -/
  asked : (c.scrape sink.recorded picks shards ⟨l, state, []⟩).value.2.sink =
    (c.scrape sink.recorded picks shards ⟨l', state, []⟩).value.2.sink
  tally : (c.scrape sink picks shards ⟨l, state⟩).value.1 =
    (c.scrape sink picks shards ⟨l', state⟩).value.1
  events : (c.scrape sink picks shards ⟨l, state⟩).events =
    (c.scrape sink picks shards ⟨l', state⟩).events
  /-- In the end there are the same marks, the same gauge and the same state of the sink. -/
  after : (c.scrape sink picks shards ⟨l, state⟩).value.2.Alike
    (c.scrape sink picks shards ⟨l', state⟩).value.2
  /-- The outcomes are what the sink made of the samples, and what is marked is what it took in
  this scrape, each once. -/
  truthful : ∀ m ∈ [l, l'], ∀ a ∈ (Task.scrape picks shards).history c sink ⟨m, state⟩, a.Truthful
  wellFormed : ∀ m ∈ [l, l'], (c.scrape sink picks shards ⟨m, state⟩).value.2.ledger.WellFormed
  marks : ∀ m ∈ [l, l'], ∀ s,
    s ∈ (c.scrape sink picks shards ⟨m, state⟩).value.2.ledger.marks ↔
      s ∈ accepted ((Task.scrape picks shards).history c sink ⟨m, state⟩)
  /-- Both counters go up by the same, by one for each sample and by one for each duplicate. -/
  checks : ∀ m ∈ [l, l'], (c.scrape sink picks shards ⟨m, state⟩).value.2.ledger.checks =
    m.checks + UInt64.ofNat shards.flatten.length
  duplicates : ∀ m ∈ [l, l'],
    (c.scrape sink picks shards ⟨m, state⟩).value.2.ledger.duplicates =
      m.duplicates + UInt64.ofNat
        ((c.offerShards sink picks shards ⟨l.clear, state⟩).value.1.count .duplicate)
  /-- Turn by turn workers and caller do the same, and a counter has at every point what was
  added to it. -/
  run : ∀ turns, (c.collecting sink shards ⟨l.clear, state⟩ turns).Alike
    (c.collecting sink shards ⟨l'.clear, state⟩ turns)
  counted : ∀ m ∈ [l, l'], ∀ turns,
    (c.collecting sink shards ⟨m.clear, state⟩ turns).Counted m
  /-- No turn lowers a counter: it leaves it alone or adds one to it. -/
  ticks : ∀ m ∈ [l, l'], ∀ turns turn,
    (c.collecting sink shards ⟨m.clear, state⟩ turns).progress.ledger.Ticks
      ((c.collecting sink shards ⟨m.clear, state⟩ turns).step c sink turn).progress.ledger
  /-- So at no point is a counter below where it was, as long as the shards do not overflow it. -/
  lowered : ∀ m ∈ [l, l'], m.checks.toNat + shards.flatten.length < 2 ^ 64 →
    m.duplicates.toNat + shards.flatten.length < 2 ^ 64 → ∀ turns,
      m.checks ≤ (c.collecting sink shards ⟨m.clear, state⟩ turns).progress.ledger.checks ∧
      m.duplicates ≤ (c.collecting sink shards ⟨m.clear, state⟩ turns).progress.ledger.duplicates

/-- A scrape is the same on every ledger, whatever marks it finds and whatever the
counters say. -/
theorem forgettingLaw_of_scrapes (c : Collector) (sink : Sink σ) (picks : List Nat)
    (shards : List (List Sample)) (state : σ) (l l' : Ledger) :
    ForgettingLaw c sink picks shards state l l' := by
  obtain ⟨houtcomes, hevents, hafter⟩ :=
    c.offerShards_alike sink picks shards (l.clear_alike l' state)
  have hsettle (m : Ledger) : (c.scrape sink picks shards ⟨m, state⟩).value.2 =
      Offer.settle ((Task.scrape picks shards).offers c sink) ⟨m.clear, state⟩ := by
    rw [scrape_eq, value_offerShards_clear]
  have hlength := (Task.scrape picks shards).length_offers c sink
  have hmember {m : Ledger} (hm : m ∈ [l, l']) :
      (c.offerShards sink picks shards ⟨m.clear, state⟩).value.1 =
        (c.offerShards sink picks shards ⟨l.clear, state⟩).value.1 := by
    obtain rfl | rfl := List.mem_pair.mp hm
    · rfl
    · exact houtcomes.symm
  have hcounted (m : Ledger) (turns : List Turn) :
      (c.collecting sink shards ⟨m.clear, state⟩ turns).Counted m :=
    Pipeline.Counted.run ⟨(UInt64.add_zero _).symm, (UInt64.add_zero _).symm⟩ turns
  constructor
  case seen => exact Offer.trace_alike (l.clear_alike l' state) _
  case outcomes => exact houtcomes
  case asked =>
    obtain ⟨-, -, hasked⟩ :=
      c.offerShards_alike sink.recorded picks shards (l.clear_alike l' (state, []))
    exact hasked.sink
  case tally => rw [scrape_eq, scrape_eq, houtcomes]
  case events => rw [scrape_eq, scrape_eq, houtcomes, hevents]
  case after => exact hafter
  case truthful => exact fun _ _ _ => Offer.truthful_of_mem_trace
  case wellFormed =>
    intro m _
    rw [hsettle]
    exact Offer.settle_wellFormed _ m.clear_wellFormed
  case marks =>
    intro m _ s
    rw [hsettle, Offer.mem_marks_settle]
    exact or_iff_right List.not_mem_nil
  case checks =>
    intro m _
    rw [hsettle, Offer.checks_settle, hlength]
    rfl
  case duplicates =>
    intro m hm
    rw [hsettle, Offer.duplicates_settle, ← hmember hm, value_offerShards_clear]
    rfl
  case run =>
    intro turns
    have hstart : (Pipeline.start c shards ⟨l.clear, state⟩).Alike
        (Pipeline.start c shards ⟨l'.clear, state⟩) :=
      ⟨rfl, rfl, rfl, rfl, l.clear_alike l' state⟩
    exact hstart.run turns
  case counted => exact fun m _ turns => hcounted m turns
  case ticks => exact fun m _ turns turn => Pipeline.step_ticks _ turn
  case lowered =>
    intro m _ hchecks hduplicates turns
    have hle := c.length_outcomes_collecting_le sink shards ⟨m.clear, state⟩ turns
    have hcount : (c.collecting sink shards ⟨m.clear, state⟩ turns).outcomes.count .duplicate ≤
        (c.collecting sink shards ⟨m.clear, state⟩ turns).outcomes.length :=
      List.count_le_length
    rw [UInt64.le_iff_toNat_le, UInt64.le_iff_toNat_le, (hcounted m turns).checks,
      (hcounted m turns).duplicates, Ledger.toNat_add_ofNat (by omega),
      Ledger.toNat_add_ofNat (by omega)]
    exact ⟨Nat.le_add_right _ _, Nat.le_add_right _ _⟩

end Collector

end Scrape
