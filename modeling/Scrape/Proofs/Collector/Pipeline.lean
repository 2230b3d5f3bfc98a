/-
Shards collected as a row.

Workers and caller take turns in any way, so at most points of a run some
samples are on their way: sent, and not yet offered.  What the caller will do
with them is settled all the same, for nobody else touches ledger or sink.  So
a run may be compared at any point with the collection of a row: the samples
that were sent, in the order in which they entered the channel, come to what the
caller has and what offering the channel will add to it (`Underway`).  Each turn
keeps that, and when the channel is empty nothing is left to add.

The order in which samples enter the channel is an interleaving of the loads of
the workers, and every interleaving is the order of some run.  `rowLaw_of_shards`
gathers what follows for shards, workers and sinks of any kind.
-/
import Scrape.Collector.Pipeline
import Scrape.Proofs.Collector.Admission
import Scrape.Proofs.Delivery
import Scrape.Proofs.Threads

namespace Scrape

open Delivery (Interleaving sentBy)

variable {σ : Type}

/-! ## One more offer -/

theorem Candidate.offerAll_concat (sink : Sink σ) (arrivals : List (Logged Candidate))
    (x : Logged Candidate) (p : Progress σ) :
    offerAll sink (arrivals ++ [x]) p =
      (offerAll sink arrivals p >>= fun y =>
        Prod.map (y.1 ++ [·]) id <$> (x >>= fun d => d.offer sink y.2)) := by
  induction arrivals generalizing p with
  | nil =>
      simp only [List.nil_append, offerAll, bind, Logged.bind, Functor.map, Logged.map, pure,
        List.append_nil]
      rfl
  | cons y arrivals ih =>
      simp only [List.cons_append, offerAll, ih, bind, Logged.bind, Functor.map, Logged.map,
        List.append_assoc]
      rfl

namespace Collector

theorem offerAll_concat (c : Collector) (sink : Sink σ) (samples : List Sample) (s : Sample)
    (p : Progress σ) :
    c.offerAll sink (samples ++ [s]) p =
      (c.offerAll sink samples p >>= fun y => Prod.map (y.1 ++ [·]) id <$> c.offer sink s y.2) := by
  rw [offerAll_eq_candidates, offerAll_eq_candidates, List.map_append, List.map_singleton,
    Candidate.offerAll_concat]
  rfl

namespace Pipeline

variable (c : Collector) (sink : Sink σ)

/-! ## Turns -/

/-- The sample that is sent in a turn, with its worker. -/
def sent? (w : Pipeline σ) : Turn → Option (Nat × Sample)
  | .send i => (w.loads[i]?.bind List.head?).map (i, ·)
  | .receive => none

/-- The samples that are sent in a run, each with its worker, in the order in which
they enter the channel. -/
def sent (w : Pipeline σ) : List Turn → List (Nat × Sample)
  | [] => []
  | turn :: turns => (w.sent? turn).toList ++ (w.step c sink turn).sent turns

variable {w : Pipeline σ}

theorem step_send {i : Nat} {s : Sample} {rest : List Sample}
    (h : w.loads[i]? = some (s :: rest)) :
    w.step c sink (.send i) =
      { w with
        loads := w.loads.set i rest
        channel := w.channel ++ [(c.candidate s).value]
        reported := (c.candidate s).events.reverse ++ w.reported } := by
  simp only [step, h]

theorem step_receive {d : Candidate} {channel : List Candidate} (h : w.channel = d :: channel) :
    w.step c sink .receive =
      { w with
        channel
        progress := (d.offer sink w.progress).value.2
        outcomes := (d.offer sink w.progress).value.1 :: w.outcomes
        reported := (d.offer sink w.progress).events.reverse ++ w.reported } := by
  simp only [step, h]

/-- A turn sends a sample, offers a candidate, or is passed over. -/
theorem step_cases (w : Pipeline σ) (turn : Turn) :
    (∃ i s rest, turn = .send i ∧ w.loads[i]? = some (s :: rest) ∧
      w.sent? turn = some (i, s)) ∨
    (∃ d channel, turn = .receive ∧ w.channel = d :: channel ∧ w.sent? turn = none) ∨
    (w.step c sink turn = w ∧ w.sent? turn = none) := by
  cases turn with
  | send i =>
      cases hload : w.loads[i]? with
      | none => exact .inr (.inr ⟨by simp only [step, hload], by simp [sent?, hload]⟩)
      | some load =>
          cases load with
          | nil => exact .inr (.inr ⟨by simp only [step, hload], by simp [sent?, hload]⟩)
          | cons s rest => exact .inl ⟨i, s, rest, rfl, hload, by simp [sent?, hload]⟩
  | receive =>
      cases hchannel : w.channel with
      | nil => exact .inr (.inr ⟨by simp only [step, hchannel], rfl⟩)
      | cons d channel => exact .inr (.inl ⟨d, channel, rfl, rfl, rfl⟩)

/-! ## On the way -/

/-- How a pipeline stands when `arrivals` were sent of `loads`: collected as a row
from `p` on, they come to what is there and what the channel will add. -/
structure Underway (loads : List (List Sample)) (p : Progress σ)
    (arrivals : List (Nat × Sample)) (w : Pipeline σ) : Prop where
  loads : ∀ i, sentBy i arrivals ++ w.loads[i]?.getD [] = loads[i]?.getD []
  outcomes : (c.offerAll sink (arrivals.map (·.2)) p).value.1 =
    w.outcomes.reverse ++ (Candidate.offerAll sink (w.channel.map pure) w.progress).value.1
  progress : (c.offerAll sink (arrivals.map (·.2)) p).value.2 =
    (Candidate.offerAll sink (w.channel.map pure) w.progress).value.2
  reported : (c.offerAll sink (arrivals.map (·.2)) p).events.Perm
    (w.reported ++ (Candidate.offerAll sink (w.channel.map pure) w.progress).events)

variable {c sink} {loads : List (List Sample)} {p : Progress σ} {arrivals : List (Nat × Sample)}

theorem start_underway (c : Collector) (sink : Sink σ) (shards : List (List Sample))
    (p : Progress σ) : Underway c sink (c.workloads shards) p [] (start c shards p) where
  loads := fun _ => rfl
  outcomes := rfl
  progress := rfl
  reported := .refl _

/-- A sample that is sent is the last of the row and the last of the channel. -/
theorem Underway.send (h : Underway c sink loads p arrivals w) {i : Nat} {s : Sample}
    {rest : List Sample} (hload : w.loads[i]? = some (s :: rest)) :
    Underway c sink loads p (arrivals ++ [(i, s)]) (w.step c sink (.send i)) := by
  obtain ⟨hlt, -⟩ := List.getElem?_eq_some_iff.mp hload
  rw [step_send c sink hload]
  constructor
  case loads =>
    intro j
    rw [← h.loads j, Delivery.sentBy_append, Delivery.sentBy_cons]
    by_cases hj : i = j
    · subst hj
      rw [if_pos rfl, List.getElem?_set_self hlt, hload]
      simp [sentBy]
    · rw [if_neg hj, List.getElem?_set_ne hj]
      simp [sentBy]
  case outcomes =>
    simp only [List.map_append, List.map_singleton, offerAll_concat, Candidate.offerAll_concat,
      Logged.value_bind, Logged.value_map, Prod.map_fst, h.progress, h.outcomes,
      List.append_assoc]
    rfl
  case progress =>
    simp only [List.map_append, List.map_singleton, offerAll_concat, Candidate.offerAll_concat,
      Logged.value_bind, Logged.value_map, Prod.map_snd, h.progress]
    rfl
  case reported =>
    simp only [List.map_append, List.map_singleton, offerAll_concat, Candidate.offerAll_concat,
      Logged.events_bind, Logged.events_map, h.progress, offer]
    rw [List.perm_iff_count]
    intro e
    have hcount := h.reported.count_eq e
    simp only [List.count_append, List.count_reverse, Logged.events_pure, List.count_nil,
      Logged.value_pure] at hcount ⊢
    omega

/-- A candidate that is offered is the first of the channel. -/
theorem Underway.receive (h : Underway c sink loads p arrivals w) {d : Candidate}
    {channel : List Candidate} (hchannel : w.channel = d :: channel) :
    Underway c sink loads p arrivals (w.step c sink .receive) := by
  have houtcomes := h.outcomes
  have hprogress := h.progress
  have hreported := h.reported
  rw [step_receive c sink hchannel]
  rw [hchannel, List.map_cons] at houtcomes hprogress hreported
  refine ⟨h.loads, ?_, hprogress, ?_⟩
  · rw [houtcomes, List.reverse_cons, List.append_assoc]
    rfl
  · rw [List.perm_iff_count]
    intro e
    have hcount := hreported.count_eq e
    simp only [Candidate.offerAll, Logged.events_bind, Logged.events_map, Logged.events_pure,
      Logged.value_pure, List.count_append, List.count_reverse, List.count_nil] at hcount ⊢
    omega

theorem Underway.step (h : Underway c sink loads p arrivals w) (turn : Turn) :
    Underway c sink loads p (arrivals ++ (w.sent? turn).toList) (w.step c sink turn) := by
  obtain ⟨i, s, rest, rfl, hload, hsent⟩ | ⟨d, channel, rfl, hchannel, hsent⟩ | ⟨hstep, hsent⟩ :=
    step_cases c sink w turn
  · rw [hsent]
    exact h.send hload
  · rw [hsent, Option.toList_none, List.append_nil]
    exact h.receive hchannel
  · rw [hsent, Option.toList_none, List.append_nil, hstep]
    exact h

theorem Underway.run (h : Underway c sink loads p arrivals w) (turns : List Turn) :
    Underway c sink loads p (arrivals ++ w.sent c sink turns) (w.run c sink turns) := by
  induction turns generalizing arrivals w with
  | nil =>
      rw [sent, List.append_nil]
      exact h
  | cons turn turns ih =>
      rw [sent, ← List.append_assoc]
      exact ih (h.step turn)

/-- With the channel empty and the loads sent, the row has been collected. -/
theorem Underway.of_done (h : Underway c sink loads p arrivals w) (hdone : w.done) :
    Interleaving loads (arrivals.map (·.2)) ∧
      w.result = (c.collect sink (arrivals.map (·.2)) p).value ∧
      (c.collect sink (arrivals.map (·.2)) p).events.Perm w.reported := by
  obtain ⟨hloads, hchannel⟩ := hdone
  have houtcomes := h.outcomes
  have hprogress := h.progress
  have hreported := h.reported
  rw [hchannel] at houtcomes hprogress hreported
  refine ⟨⟨arrivals, rfl, ?_⟩, ?_, ?_⟩
  · intro i
    rw [← h.loads i]
    have hload : w.loads[i]?.getD [] = [] := by
      cases hi : w.loads[i]? with
      | none => rfl
      | some load => exact hloads load (List.mem_of_getElem? hi)
    rw [hload, List.append_nil]
  · rw [collect, Logged.value_map, result]
    refine Prod.ext ?_ hprogress.symm
    rw [Prod.map_fst, houtcomes]
    exact congrArg Tally.ofOutcomes (List.append_nil _).symm
  · rw [collect, Logged.events_map]
    exact hreported.trans (.of_eq (List.append_nil _))

/-! ## Every run has an end, and every interleaving a run -/

/-- Every run can go on to a point where all is sent and offered. -/
theorem exists_run_done (c : Collector) (sink : Sink σ) (w : Pipeline σ) :
    ∃ turns, (w.run c sink turns).done := by
  refine exists_foldl_of_lt (fun w => 2 * w.loads.flatten.length + w.channel.length) ?_ w
  intro w hdone
  cases hchannel : w.channel with
  | cons d channel =>
      refine ⟨.receive, ?_⟩
      rw [step_receive c sink hchannel, List.length_cons]
      exact Nat.lt_succ_self _
  | nil =>
      have hload : ∃ load ∈ w.loads, load ≠ [] := by
        by_contra hall
        refine hdone ⟨fun load hload => ?_, hchannel⟩
        by_contra hne
        exact hall ⟨load, hload, hne⟩
      obtain ⟨load, hmem, hne⟩ := hload
      obtain ⟨s, rest, rfl⟩ := List.exists_cons_of_ne_nil hne
      obtain ⟨i, hi⟩ := List.mem_iff_getElem?.mp hmem
      have hlength := (Delivery.flatten_set_perm hi).length_eq
      refine ⟨.send i, ?_⟩
      rw [List.length_cons] at hlength
      simp only [step_send c sink hi, hchannel, List.nil_append, List.length_singleton,
        List.length_nil]
      omega

/-- The turns in which each sample is offered as soon as it is sent. -/
def promptly (arrivals : List (Nat × Sample)) : List Turn :=
  arrivals.flatMap fun a => [.send a.1, .receive]

theorem run_promptly (c : Collector) (sink : Sink σ) {w : Pipeline σ}
    {arrivals : List (Nat × Sample)} (hloads : ∀ i, sentBy i arrivals = w.loads[i]?.getD [])
    (hchannel : w.channel = []) :
    (w.run c sink (promptly arrivals)).done ∧
      w.sent c sink (promptly arrivals) = arrivals := by
  induction arrivals generalizing w with
  | nil =>
      refine ⟨⟨fun load hload => ?_, hchannel⟩, rfl⟩
      obtain ⟨i, hi⟩ := List.mem_iff_getElem?.mp (show load ∈ w.loads from hload)
      have hnil := hloads i
      rw [hi] at hnil
      exact hnil.symm
  | cons a arrivals ih =>
      obtain ⟨hload, hrest⟩ := Delivery.sentBy_cons_cases hloads
      have hsend := step_send c sink hload
      rw [hchannel, List.nil_append] at hsend
      have hreceive := step_receive c sink (congrArg Pipeline.channel hsend)
      obtain ⟨hdone, hsent⟩ := ih (w := (w.step c sink (.send a.1)).step c sink .receive)
        (by rw [hreceive, hsend]; exact hrest) (by rw [hreceive])
      refine ⟨hdone, ?_⟩
      have hfirst : w.sent? (.send a.1) = some a := by simp [sent?, hload]
      exact congrArg₂ (· ++ ·) (congrArg Option.toList hfirst) hsent

end Pipeline

end Collector

/-! ## What a sink is asked -/

/-- A sink that also keeps what it is asked to take, the latest first. -/
def Sink.recorded (sink : Sink σ) : Sink (σ × List Emission) where
  emit state e := ((sink.emit state.1 e).1, (sink.emit state.1 e).2, e :: state.2)

/-- What the sinks of some admissions were asked to take. -/
def Admission.asked (admissions : List (Admission σ)) : List Emission :=
  (admissions.filter (·.outcome ≠ .duplicate)).map (·.offer.candidate.emission)

theorem Admission.asked_append (admissions more : List (Admission σ)) :
    asked (admissions ++ more) = asked admissions ++ asked more := by
  simp [asked]

/-- A sink answers as before when it is recorded, and the record is what it was
asked. -/
theorem Candidate.value_offer_recorded (d : Candidate) (sink : Sink σ) (p : Progress σ)
    (calls : List Emission) :
    (d.offer sink.recorded ⟨p.ledger, p.sink, calls⟩).value =
      ((Offer.make ⟨sink, d⟩ p).outcome,
        ⟨(Offer.make ⟨sink, d⟩ p).after.ledger, (Offer.make ⟨sink, d⟩ p).after.sink,
          (Admission.asked [Offer.make ⟨sink, d⟩ p]).reverse ++ calls⟩) := by
  obtain ⟨h, e⟩ | ⟨state, h, hs, e⟩ | ⟨fault, state, h, hs, e⟩ := d.offer_cases sink p
  · have hoffer : d.offer sink.recorded ⟨p.ledger, p.sink, calls⟩ = _ := offer_of_mem h
    rw [hoffer]
    simp [Offer.make, e, Admission.asked]
  · have hanswer : sink.recorded.emit (p.sink, calls) d.emission =
        (.ok (), state, d.emission :: calls) := by simp [Sink.recorded, hs]
    have hoffer : d.offer sink.recorded ⟨p.ledger, p.sink, calls⟩ = _ := offer_of_ok h hanswer
    rw [hoffer]
    simp [Offer.make, e, Admission.asked]
  · have hanswer : sink.recorded.emit (p.sink, calls) d.emission =
        (.error fault, state, d.emission :: calls) := by simp [Sink.recorded, hs]
    have hoffer : d.offer sink.recorded ⟨p.ledger, p.sink, calls⟩ = _ :=
      offer_of_error h hanswer
    rw [hoffer]
    simp [Offer.make, e, Admission.asked]

theorem Candidate.value_offerAll_recorded (sink : Sink σ) (arrivals : List (Logged Candidate))
    (p : Progress σ) (calls : List Emission) :
    (offerAll sink.recorded arrivals ⟨p.ledger, p.sink, calls⟩).value.2 =
      ⟨(Offer.settle (arrivals.map fun x => ⟨sink, x.value⟩) p).ledger,
        (Offer.settle (arrivals.map fun x => ⟨sink, x.value⟩) p).sink,
        (Admission.asked (Offer.trace (arrivals.map fun x => ⟨sink, x.value⟩) p)).reverse ++
          calls⟩ := by
  induction arrivals generalizing p calls with
  | nil => rfl
  | cons x arrivals ih =>
      have hasked := Admission.asked_append [Offer.make ⟨sink, x.value⟩ p]
        (Offer.trace (arrivals.map fun x => ⟨sink, x.value⟩) (Offer.make ⟨sink, x.value⟩ p).after)
      rw [List.singleton_append] at hasked
      simp only [offerAll, Logged.value_bind, Logged.value_map, value_offer_recorded, Prod.map_snd,
        id, ih, List.map_cons, Offer.trace, hasked, List.reverse_append, List.append_assoc]
      rfl

namespace Collector

/-! ## The law of a row -/

/-- Shards of which workers and caller have made their turns. -/
def collecting (c : Collector) (sink : Sink σ) (shards : List (List Sample)) (p : Progress σ)
    (turns : List Turn) : Pipeline σ :=
  (Pipeline.start c shards p).run c sink turns

/-- The samples that were sent in these turns, in their order. -/
def sentIn (c : Collector) (sink : Sink σ) (shards : List (List Sample)) (p : Progress σ)
    (turns : List Turn) : List Sample :=
  ((Pipeline.start c shards p).sent c sink turns).map (·.2)

/-- Shards whose candidates arrive in the order of some picks are the row of samples
that the picks deliver. -/
theorem collectShards_eq_collect (c : Collector) (sink : Sink σ) (picks : List Nat)
    (shards : List (List Sample)) (p : Progress σ) :
    c.collectShards sink picks shards p =
      c.collect sink (Delivery.deliver picks (c.workloads shards)) p := by
  rw [collectShards, offerShards, streams, Delivery.deliver_map, collect, offerAll_eq_candidates]

theorem history_shards (c : Collector) (sink : Sink σ) (picks : List Nat)
    (shards : List (List Sample)) (p : Progress σ) :
    Call.history [⟨c, sink, .shards picks shards⟩] p =
      Call.history [⟨c, sink, .row (Delivery.deliver picks (c.workloads shards))⟩] p := by
  simp only [Call.history, List.flatMap_singleton, Call.offers, streams, Delivery.deliver_map,
    List.map_map]
  rfl

/-- The record of a row has what the sink was asked for in its history. -/
theorem asked_history_row (c : Collector) (sink : Sink σ) (samples : List Sample)
    (p : Progress σ) :
    (c.collect sink.recorded samples ⟨p.ledger, p.sink, []⟩).value.2.sink.2.reverse =
      Admission.asked (Call.history [⟨c, sink, .row samples⟩] p) := by
  rw [collect, Logged.value_map, Prod.map_snd, offerAll_eq_candidates, id,
    Candidate.value_offerAll_recorded, List.append_nil, List.reverse_reverse, List.map_map,
    Call.history, List.flatMap_singleton]
  rfl

/-- What holds of any shards, for a collector of the options `o`. -/
structure RowLaw (o : Options) (shards : List (List Sample)) : Prop where
  /-- The pieces that the workers get: none is empty, together they are the shards, and
  there are no more of them than workers. -/
  pieces_ne_nil : ∀ piece ∈ Delivery.split (ofOptions o).workers shards, piece ≠ []
  flatten_pieces : (Delivery.split (ofOptions o).workers shards).flatten = shards
  length_pieces_le : (Delivery.split (ofOptions o).workers shards).length ≤ max 1 o.workers
  /-- However workers and caller take turns: when they are done, the samples were sent
  in an interleaving of the workers' loads, and what the caller has, from the tally to
  the ledger and the state of the sink, is what it has from collecting these samples
  in a row.  The reports are the same ones, in some order. -/
  run : ∀ {σ : Type} (sink : Sink σ) (p : Progress σ) (turns : List Turn),
    ((ofOptions o).collecting sink shards p turns).done →
      Interleaving ((ofOptions o).workloads shards) ((ofOptions o).sentIn sink shards p turns) ∧
      ((ofOptions o).collecting sink shards p turns).result =
        ((ofOptions o).collect sink ((ofOptions o).sentIn sink shards p turns) p).value ∧
      ((ofOptions o).collect sink ((ofOptions o).sentIn sink shards p turns) p).events.Perm
        ((ofOptions o).collecting sink shards p turns).reported
  /-- The sink is asked to take the same emissions, in the same order. -/
  asked : ∀ {σ : Type} (sink : Sink σ) (p : Progress σ) (turns : List Turn),
    ((ofOptions o).collecting sink.recorded shards ⟨p.ledger, p.sink, []⟩ turns).done →
      ((ofOptions o).collecting sink.recorded shards ⟨p.ledger, p.sink, []⟩
        turns).progress.sink.2.reverse =
      Admission.asked (Call.history [⟨ofOptions o, sink,
        .row ((ofOptions o).sentIn sink.recorded shards ⟨p.ledger, p.sink, []⟩ turns)⟩] p)
  /-- No run is stuck, and every interleaving is the order of a run. -/
  returns : ∀ {σ : Type} (sink : Sink σ) (p : Progress σ) (turns : List Turn),
    ∃ more, ((ofOptions o).collecting sink shards p (turns ++ more)).done
  reached : ∀ {σ : Type} (sink : Sink σ) (p : Progress σ) {samples : List Sample},
    Interleaving ((ofOptions o).workloads shards) samples →
      ∃ turns, ((ofOptions o).collecting sink shards p turns).done ∧
        (ofOptions o).sentIn sink shards p turns = samples
  /-- The same where the order of arrival is given by picks, which reach every
  interleaving as well. -/
  delivered : ∀ samples, Interleaving ((ofOptions o).workloads shards) samples ↔
    ∃ picks, Delivery.deliver picks ((ofOptions o).workloads shards) = samples
  picked : ∀ {σ : Type} (sink : Sink σ) (p : Progress σ) (picks : List Nat),
    ((ofOptions o).collectShards sink picks shards p).value =
        ((ofOptions o).collect sink
          (Delivery.deliver picks ((ofOptions o).workloads shards)) p).value ∧
      Call.history [⟨ofOptions o, sink, .shards picks shards⟩] p =
        Call.history [⟨ofOptions o, sink,
          .row (Delivery.deliver picks ((ofOptions o).workloads shards))⟩] p
  /-- Every sample of every shard is collected once, and in the order of the shards if
  they are not cut. -/
  once : ∀ samples, Interleaving ((ofOptions o).workloads shards) samples →
    samples.Perm shards.flatten
  uncut : (Delivery.split (ofOptions o).workers shards).length ≤ 1 →
    ∀ samples, Interleaving ((ofOptions o).workloads shards) samples → samples = shards.flatten

theorem flatten_workloads (c : Collector) (shards : List (List Sample)) :
    (c.workloads shards).flatten = shards.flatten := by
  rw [workloads, ← List.flatten_flatten, Delivery.split, Delivery.flatten_chunks]

/-- Workers make no difference but in the order of the samples: shards are collected as
a row that interleaves the loads of the workers. -/
theorem rowLaw_of_shards (o : Options) (shards : List (List Sample)) : RowLaw o shards where
  pieces_ne_nil := fun _ hpiece => Delivery.ne_nil_of_mem_chunks hpiece
  flatten_pieces := Delivery.flatten_chunks _ shards
  length_pieces_le := by
    rw [Nat.max_comm]
    exact Delivery.length_split_le (ofOptions o).workers_pos shards
  run := by
    intro σ sink p turns hdone
    exact ((Pipeline.start_underway _ sink shards p).run turns).of_done hdone
  asked := by
    intro σ sink p turns hdone
    obtain ⟨-, hresult, -⟩ :=
      ((Pipeline.start_underway _ sink.recorded shards _).run turns).of_done hdone
    exact (congrArg (·.2.sink.2.reverse) hresult).trans (asked_history_row _ sink _ p)
  returns := by
    intro σ sink p turns
    obtain ⟨more, hdone⟩ :=
      Pipeline.exists_run_done (ofOptions o) sink ((ofOptions o).collecting sink shards p turns)
    refine ⟨more, ?_⟩
    rw [collecting, Pipeline.run, List.foldl_append]
    exact hdone
  reached := by
    rintro σ sink p _ ⟨arrivals, rfl, hsent⟩
    obtain ⟨hdone, harrivals⟩ := Pipeline.run_promptly (ofOptions o) sink
      (w := Pipeline.start (ofOptions o) shards p) hsent rfl
    refine ⟨Pipeline.promptly arrivals, hdone, ?_⟩
    rw [sentIn, harrivals]
  delivered := fun _ => Delivery.interleaving_iff_exists_deliver
  picked := by
    intro σ sink p picks
    exact ⟨congrArg Logged.value (collectShards_eq_collect _ sink picks shards p),
      history_shards _ sink picks shards p⟩
  once := by
    intro samples hsamples
    rw [← flatten_workloads (ofOptions o)]
    exact hsamples.perm
  uncut := by
    intro hlength samples hsamples
    rw [← flatten_workloads (ofOptions o)]
    refine hsamples.eq_flatten ?_
    rw [workloads, List.length_map]
    exact hlength

end Collector

end Scrape
