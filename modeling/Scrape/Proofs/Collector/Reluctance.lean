/-
Batches whose totals no order changes.

A sink that refuses at first spends its refusals on whatever comes first, so
which samples it refuses depends on the order in which they are offered.  How
many samples meet which fate need not.  If every series that is not marked yet
has more copies in the batch than the sink has refusals, no series can lose all
its copies to them; so each is taken once, and once one is taken the refusals
are spent (`Offer.failed_cases`).  What is left are duplicates.

A batch may come as a row in any order, or as shards, with any number of workers
and in any order of arrival: all these are orders of the one batch
(`Call.fingerprints_perm`).
-/
import Mathlib.Data.Finset.Card
import Scrape.Proofs.Collector.Pipeline

namespace Scrape

open Admission (accepted outcomesOf)

variable {σ : Type}

/-! ## Sinks that refuse at first -/

namespace Sink

/-- The answers of a sink that is asked to take emissions one after another. -/
def answers (sink : Sink σ) : σ → List Emission → List (Except Fault Unit)
  | _, [] => []
  | state, e :: emissions => (sink.emit state e).1 :: sink.answers (sink.emit state e).2 emissions

/-- A sink in this state refuses the next `n` emissions, whatever they are, and takes
all that come after them. -/
def RefusesFirst (sink : Sink σ) (n : Nat) (state : σ) : Prop :=
  ∀ emissions i answer, (sink.answers state emissions)[i]? = some answer →
    ((∃ fault, answer = .error fault) ↔ i < n)

variable {sink : Sink σ} {n : Nat} {state : σ}

theorem RefusesFirst.answer (h : sink.RefusesFirst n state) (e : Emission) :
    (∃ fault, (sink.emit state e).1 = .error fault) ↔ 0 < n :=
  h [e] 0 _ rfl

theorem RefusesFirst.next (h : sink.RefusesFirst n state) (e : Emission) :
    sink.RefusesFirst (n - 1) (sink.emit state e).2 := by
  intro emissions i answer hi
  rw [h (e :: emissions) (i + 1) answer hi]
  omega

theorem reluctant_refusesFirst (fault : Fault) (n : Nat) :
    (reluctant fault).RefusesFirst n n := by
  intro emissions i answer hi
  induction emissions generalizing n i with
  | nil => exact nomatch hi
  | cons e emissions ih =>
      cases n with
      | zero =>
          cases i with
          | zero =>
              cases hi
              exact iff_of_false (fun h => nomatch h.choose_spec) (Nat.lt_irrefl 0)
          | succ i =>
              rw [ih 0 i hi]
              omega
      | succ n =>
          cases i with
          | zero =>
              cases hi
              exact iff_of_true ⟨fault, rfl⟩ (Nat.succ_pos n)
          | succ i =>
              rw [ih n i hi]
              omega

end Sink

/-! ## How many meet which fate -/

theorem count_outcomes (outcomes : List Outcome) :
    outcomes.count .emitted + outcomes.count .duplicate + outcomes.count .failed =
      outcomes.length := by
  induction outcomes with
  | nil => rfl
  | cons o outcomes ih =>
      simp only [List.count_cons, List.length_cons]
      cases o <;> simp <;> omega

theorem Tally.ofOutcomes_eq (outcomes : List Outcome) :
    ofOutcomes outcomes =
      { emitted := UInt64.ofNat (outcomes.count .emitted)
        duplicates := UInt64.ofNat (outcomes.count .duplicate)
        failed := UInt64.ofNat (outcomes.count .failed) } := by
  induction outcomes using List.reverseRecOn with
  | nil => rfl
  | append_singleton outcomes o ih =>
      rw [ofOutcomes, List.foldl_concat, ← ofOutcomes, ih]
      cases o <;> simp [record, List.count_append]

/-- Those of some fingerprints that are not marked. -/
def Ledger.fresh (l : Ledger) (fingerprints : List UInt64) : Finset UInt64 :=
  fingerprints.toFinset \ l.marks.toFinset

theorem Ledger.mem_fresh {l : Ledger} {fingerprints : List UInt64} {s : UInt64} :
    s ∈ l.fresh fingerprints ↔ s ∈ fingerprints ∧ s ∉ l.marks := by
  rw [fresh, Finset.mem_sdiff, List.mem_toFinset, List.mem_toFinset]

theorem Ledger.fresh_eq_of_perm (l : Ledger) {fingerprints others : List UInt64}
    (h : fingerprints.Perm others) : l.fresh fingerprints = l.fresh others := by
  rw [fresh, fresh, List.toFinset_eq_of_perm _ _ h]

namespace Offer

/-- No more than `n` are refused, and all `n` of them before the first one is taken. -/
theorem failed_cases {sink : Sink σ} {offers : List (Offer σ)} (hsink : ∀ o ∈ offers, o.sink = sink)
    {n : Nat} {p : Progress σ} (h : sink.RefusesFirst n p.sink) :
    ((trace offers p).map (·.outcome)).count .failed ≤ n ∧
      (.emitted ∈ (trace offers p).map (·.outcome) →
        ((trace offers p).map (·.outcome)).count .failed = n) := by
  induction offers generalizing n p with
  | nil => exact ⟨Nat.zero_le n, fun hmem => absurd hmem List.not_mem_nil⟩
  | cons o offers ih =>
      obtain ⟨rfl, hoffers⟩ := List.forall_mem_cons.mp hsink
      have hanswers := h.answer o.candidate.emission
      have hnext := h.next o.candidate.emission
      rw [trace, List.map_cons, List.count_cons, List.mem_cons]
      obtain ⟨ho, hafter⟩ | ⟨ho, hemit⟩ | ⟨ho, fault, hemit⟩ := o.make_sink_cases p
      · -- the sink is not asked
        rw [← hafter] at h
        rw [ho]
        simpa using ih hoffers h
      · -- taken, so there was nothing left to refuse
        rw [hemit] at hanswers hnext
        obtain ⟨hle, -⟩ := ih hoffers hnext
        have hzero : n = 0 := by
          by_contra hne
          obtain ⟨fault, hfault⟩ := hanswers.mpr (Nat.pos_of_ne_zero hne)
          cases hfault
        subst hzero
        rw [ho]
        simp only [reduceCtorEq, beq_iff_eq, if_false]
        exact ⟨hle, fun _ => Nat.le_zero.mp hle⟩
      · -- refused, so there is one refusal less
        rw [hemit] at hanswers hnext
        obtain ⟨hle, heq⟩ := ih hoffers hnext
        have hpos : 0 < n := hanswers.mp ⟨fault, rfl⟩
        rw [ho]
        simp only [reduceCtorEq, BEq.rfl, if_true, false_or]
        refine ⟨by omega, fun hemitted => ?_⟩
        have := heq hemitted
        omega

/-! ## Batches with copies enough -/

/-- The fingerprints of some offers, each as often as it is offered. -/
def fingerprints (offers : List (Offer σ)) : List UInt64 :=
  offers.map (·.candidate.fingerprint)

theorem map_fingerprint_trace (offers : List (Offer σ)) (p : Progress σ) :
    (trace offers p).map Admission.fingerprint = fingerprints offers := by
  rw [fingerprints]
  conv => rhs; rw [← map_offer_trace offers p]
  rw [List.map_map]
  rfl

theorem length_outcomesOf (s : UInt64) (admissions : List (Admission σ)) :
    (outcomesOf s admissions).length = (admissions.map Admission.fingerprint).count s := by
  rw [outcomesOf, List.length_map, List.count_eq_countP, List.countP_map,
    ← List.countP_eq_length_filter]
  rfl

theorem length_accepted (admissions : List (Admission σ)) :
    (accepted admissions).length = (admissions.map (·.outcome)).count .emitted := by
  rw [accepted, List.length_map, List.count_eq_countP, List.countP_map,
    ← List.countP_eq_length_filter]
  rfl

theorem outcomesOf_sublist (s : UInt64) (admissions : List (Admission σ)) :
    (outcomesOf s admissions).Sublist (admissions.map (·.outcome)) :=
  List.filter_sublist.map _

theorem mem_fingerprints_of_accepted {offers : List (Offer σ)} {p : Progress σ} {s : UInt64}
    (h : s ∈ accepted (trace offers p)) : s ∈ fingerprints offers := by
  obtain ⟨a, ha, rfl⟩ := List.mem_map.mp h
  rw [← map_fingerprint_trace offers p]
  exact List.mem_map_of_mem (List.mem_filter.mp ha).1

/-- What is offered more often than anything is refused gets taken. -/
theorem mem_accepted_of_copies {offers : List (Offer σ)} {p : Progress σ} {s : UInt64}
    (hs : s ∉ p.ledger.marks)
    (hcopies : ((trace offers p).map (·.outcome)).count .failed < (fingerprints offers).count s) :
    s ∈ accepted (trace offers p) := by
  obtain ⟨n, hn | ⟨m, hm⟩⟩ := outcomesOf_of_not_mem offers hs
  · -- all its copies were refused, which are too many
    have hle := (outcomesOf_sublist s (trace offers p)).count_le .failed
    have hlength := length_outcomesOf s (trace offers p)
    rw [map_fingerprint_trace, hn, List.length_replicate] at hlength
    rw [hn, List.count_replicate_self] at hle
    omega
  · have hemitted : .emitted ∈ outcomesOf s (trace offers p) := by
      rw [hm]
      exact List.mem_append_right _ List.mem_cons_self
    obtain ⟨a, ha, ho⟩ := List.mem_map.mp hemitted
    obtain ⟨ha, hfingerprint⟩ := List.mem_filter.mp ha
    refine List.mem_map.mpr ⟨a, List.mem_filter.mpr ⟨ha, decide_eq_true ho⟩, ?_⟩
    exact of_decide_eq_true hfingerprint

section Copies

variable {sink : Sink σ} {offers : List (Offer σ)} {n : Nat} {p : Progress σ}
  (hsink : ∀ o ∈ offers, o.sink = sink) (h : sink.RefusesFirst n p.sink)
  (hcopies : ∀ s ∈ p.ledger.fresh (fingerprints offers), n < (fingerprints offers).count s)
include hsink h hcopies

/-- Everything gets taken that is not marked. -/
theorem toFinset_accepted : (accepted (trace offers p)).toFinset =
    p.ledger.fresh (fingerprints offers) := by
  obtain ⟨hle, -⟩ := failed_cases hsink h
  ext s
  rw [List.mem_toFinset, Ledger.mem_fresh]
  constructor
  · intro hs
    exact ⟨mem_fingerprints_of_accepted hs, fun hm => not_mem_accepted offers hm hs⟩
  · rintro ⟨hmem, hs⟩
    have hfresh : s ∈ p.ledger.fresh (fingerprints offers) := Ledger.mem_fresh.mpr ⟨hmem, hs⟩
    exact mem_accepted_of_copies hs (Nat.lt_of_le_of_lt hle (hcopies s hfresh))

theorem count_emitted :
    ((trace offers p).map (·.outcome)).count .emitted =
      (p.ledger.fresh (fingerprints offers)).card := by
  rw [← length_accepted, ← toFinset_accepted hsink h hcopies,
    List.toFinset_card_of_nodup (nodup_accepted offers p)]

/-- All refusals are spent, if there is something to refuse. -/
theorem count_failed (hfresh : (p.ledger.fresh (fingerprints offers)).Nonempty ∨ n = 0) :
    ((trace offers p).map (·.outcome)).count .failed = n := by
  obtain ⟨hle, heq⟩ := failed_cases hsink h
  rcases hfresh with hfresh | rfl
  · refine heq (List.count_pos_iff.mp ?_)
    rw [count_emitted hsink h hcopies]
    exact Finset.card_pos.mpr hfresh
  · exact Nat.le_zero.mp hle

theorem count_duplicate (hfresh : (p.ledger.fresh (fingerprints offers)).Nonempty ∨ n = 0) :
    ((trace offers p).map (·.outcome)).count .duplicate +
      (p.ledger.fresh (fingerprints offers)).card + n = offers.length := by
  have hall := count_outcomes ((trace offers p).map (·.outcome))
  have hlength := congrArg List.length (map_offer_trace offers p)
  rw [count_emitted hsink h hcopies, count_failed hsink h hcopies hfresh, List.length_map] at hall
  rw [List.length_map] at hlength
  omega

theorem count_accepted (s : UInt64) :
    (accepted (trace offers p)).count s =
      if s ∈ p.ledger.fresh (fingerprints offers) then 1 else 0 := by
  rw [(nodup_accepted offers p).count]
  refine if_congr ?_ rfl rfl
  rw [← toFinset_accepted hsink h hcopies, List.mem_toFinset]

theorem mem_marks_of_copies (s : UInt64) :
    s ∈ (settle offers p).ledger.marks ↔
      s ∈ p.ledger.marks ∨ s ∈ p.ledger.fresh (fingerprints offers) := by
  rw [mem_marks_settle, ← toFinset_accepted hsink h hcopies, List.mem_toFinset]

end Copies

end Offer

namespace Collector

/-! ## Batches in any order -/

/-- The samples of a load. -/
def Load.samples : Load → List Sample
  | .sample s => [s]
  | .row samples => samples
  | .shards _ whole => whole.flatten

/-- The fingerprints of some samples, each as often as it occurs. -/
def fingerprints (c : Collector) (samples : List Sample) : List UInt64 :=
  samples.map fun s => (c.candidate s).value.fingerprint

/-- What makes a fingerprint is the policy, not the number of workers. -/
theorem fingerprints_eq_of_policy {c c' : Collector} (h : c.policy = c'.policy)
    (samples : List Sample) : c.fingerprints samples = c'.fingerprints samples := by
  simp only [fingerprints, candidate, h]

namespace Call

/-- The tally that a call answers with. -/
def tally (r : Call σ) (p : Progress σ) : Tally :=
  match r.load with
  | .sample s => Tally.ofOutcomes [(r.collector.offer r.sink s p).value.1]
  | .row samples => (r.collector.collect r.sink samples p).value.1
  | .shards picks shards => (r.collector.collectShards r.sink picks shards p).value.1

theorem tally_eq (r : Call σ) (p : Progress σ) :
    r.tally p = Tally.ofOutcomes ((Offer.trace r.offers p).map (·.outcome)) := by
  have hperform : (r.perform p).value.1 = (Offer.trace r.offers p).map (·.outcome) := by
    rw [value_perform]
  rw [← hperform, tally, perform]
  cases r.load <;> rfl

theorem sink_of_mem_offers {r : Call σ} {o : Offer σ} (h : o ∈ r.offers) : o.sink = r.sink := by
  rw [offers] at h
  cases hload : r.load with
  | sample s =>
      rw [hload] at h
      rw [List.mem_singleton.mp h]
  | row samples =>
      rw [hload] at h
      obtain ⟨s, -, rfl⟩ := List.mem_map.mp h
      rfl
  | shards picks shards =>
      rw [hload] at h
      obtain ⟨x, -, rfl⟩ := List.mem_map.mp h
      rfl

/-- A call offers what its load holds, shards in the order of their arrival. -/
theorem fingerprints_perm (r : Call σ) :
    (Offer.fingerprints r.offers).Perm (r.collector.fingerprints r.load.samples) := by
  rw [Offer.fingerprints, offers, fingerprints]
  cases r.load with
  | sample s => exact .refl _
  | row samples =>
      rw [List.map_map]
      exact .refl _
  | shards picks shards =>
      rw [List.map_map, streams, Delivery.deliver_map, List.map_map, Load.samples,
        ← flatten_workloads r.collector]
      exact (Delivery.deliver_perm picks _).map _

/-- Calls of one policy offer a batch that is divided among their loads. -/
theorem fingerprints_flatMap_perm {c : Collector} {calls : List (Call σ)}
    (h : ∀ r ∈ calls, r.collector.policy = c.policy) :
    (Offer.fingerprints (calls.flatMap offers)).Perm
      (c.fingerprints (calls.flatMap (·.load.samples))) := by
  induction calls with
  | nil => exact .refl _
  | cons r calls ih =>
      obtain ⟨hr, hcalls⟩ := List.forall_mem_cons.mp h
      have hfirst := r.fingerprints_perm
      rw [fingerprints_eq_of_policy hr] at hfirst
      have happend := hfirst.append (ih hcalls)
      simp only [Offer.fingerprints, fingerprints, List.flatMap_cons, List.map_append] at happend ⊢
      exact happend

/-- What becomes of a batch of `total` samples that calls bring to a sink: of their
fingerprints those in `fresh` are not marked, and the sink refuses `n` times. -/
structure BatchLaw (fresh : Finset UInt64) (total n : Nat) (calls : List (Call σ))
    (p : Progress σ) : Prop where
  emitted : (performAll calls p).value.1.count .emitted = fresh.card
  failed : (performAll calls p).value.1.count .failed = n
  duplicates : (performAll calls p).value.1.count .duplicate + fresh.card + n = total
  /-- A single call answers with just these numbers. -/
  tally : ∀ r, calls = [r] → r.tally p =
    { emitted := UInt64.ofNat fresh.card
      duplicates := UInt64.ofNat (total - fresh.card - n)
      failed := UInt64.ofNat n }
  /-- The sink takes each fresh fingerprint once, and nothing else. -/
  once : ∀ s, (accepted (history calls p)).count s = if s ∈ fresh then 1 else 0
  marks : ∀ s, s ∈ (performAll calls p).value.2.ledger.marks ↔
    s ∈ p.ledger.marks ∨ s ∈ fresh

end Call

end Collector

end Scrape
