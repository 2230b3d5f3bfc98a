/-
Samples that are reserved instead of offered.

A caller that has no sink to give reserves a sample: its mark is set, and what a sink
would have been asked to take comes back.  Later it may ask for the sample by name, labels
and time, or give the mark back by them, and then the fingerprint is made a second time,
from labels that the caller may have put in another order.

So there are three ways to one mark.  Reserving and offering make the same check of the
same candidate and differ in who has the emission afterwards (`reserve_of_not_mem`,
`Candidate.offer_of_ok`).  That the third way comes to the same fingerprint is a matter of
the labels: those of an emission have distinct keys, so that in any order they are sorted
to the same rows (`Fingerprint.of_perm_toList`).  And to give a mark back that was set on a
ledger is to have the marks that were there before, because the mark was not among them.
-/
import Scrape.Proofs.Collector.Pipeline
import Scrape.Proofs.Collector.Series
import Scrape.Proofs.Fingerprint.Order
import Scrape.Proofs.Ledger.History

namespace Scrape

variable {σ : Type}

/-- The sink takes whatever it is offered in this state. -/
def Sink.Takes (sink : Sink σ) (state : σ) : Prop :=
  ∀ e, (sink.emit state e).1 = .ok ()

theorem Sink.Takes.recorded {sink : Sink σ} {state : σ} (h : sink.Takes state)
    (calls : List Emission) : sink.recorded.Takes (state, calls) :=
  h

/-- Labels of a set give its fingerprint in whatever order they are given. -/
theorem Fingerprint.of_perm_toList {s : Labels} (h : s.WellFormed)
    {labels : List (String × String)} (hperm : labels.Perm s.toList) (name : String)
    (time : Option Instant) :
    of name (labels.map Prod.fst) (labels.map Prod.snd) time = of name s.keys s.values time := by
  have hnodup : (s.toList.map Prod.fst).Nodup := h.map_fst_toList.symm ▸ h.nodup
  rw [of_eq_hash, of_eq_hash, encoding, encoding, pairs_columns, pairs_eq_toList h,
    Labels.sorted_eq_of_perm hnodup hperm.symm]

/-- A mark stays as long as every call that concerns it is a check. -/
theorem Ledger.Call.mem_marks_settle_of_spared {l : Ledger} (h : l.WellFormed) {s : UInt64}
    (hs : s ∈ l.marks) {calls : List Call} (hcalls : ∀ c ∈ calls, c.Concerns s → c.isCheck) :
    s ∈ (settle calls l).marks := by
  induction calls generalizing l with
  | nil => exact hs
  | cons c calls ih =>
      obtain ⟨hc, hcalls⟩ := List.forall_mem_cons.mp hcalls
      refine ih (perform_wellFormed h c) ?_ hcalls
      rw [mem_marks_perform h]
      by_cases hconcerns : c.Concerns s
      · left
        cases c with
        | check name t => exact ⟨name, congrArg _ hconcerns⟩
        | unmark t => exact absurd (hc hconcerns) Bool.false_ne_true
        | clear => exact absurd (hc hconcerns) Bool.false_ne_true
      · exact .inr ⟨hs, hconcerns⟩

namespace Collector

variable {c : Collector} {s : Sample} {l : Ledger}

/-! ## The two ways of a reservation -/

theorem reserve_of_mem (h : (c.candidate s).value.fingerprint ∈ l.marks) :
    c.reserve s l =
      ⟨(none, l.countCheck.countDuplicate), (c.candidate s).events ++
        [.duplicate (c.candidate s).value.emission.name (c.candidate s).value.fingerprint]⟩ := by
  simp only [reserve, bind, Logged.bind, Ledger.check_of_mem _ h]
  rfl

theorem reserve_of_not_mem (h : (c.candidate s).value.fingerprint ∉ l.marks) :
    c.reserve s l =
      ⟨(some (c.candidate s).value.emission, l.countCheck.withMarks
        ((c.candidate s).value.fingerprint :: l.marks)), (c.candidate s).events⟩ := by
  simp only [reserve, bind, Logged.bind, Ledger.check_of_not_mem _ h]
  exact congrArg _ (List.append_nil _)

/-- What a reservation gives is the emission of a sample that was not marked. -/
theorem reserve_eq_some_iff {e : Emission} :
    (c.reserve s l).value.1 = some e ↔
      (c.candidate s).value.fingerprint ∉ l.marks ∧ (c.candidate s).value.emission = e := by
  by_cases h : (c.candidate s).value.fingerprint ∈ l.marks
  · rw [reserve_of_mem h]
    exact iff_of_false (nomatch ·) fun hnot => hnot.1 h
  · rw [reserve_of_not_mem h]
    exact Option.some_inj.trans (and_iff_right h).symm

theorem reserve_eq_none_iff :
    (c.reserve s l).value.1 = none ↔ (c.candidate s).value.fingerprint ∈ l.marks := by
  by_cases h : (c.candidate s).value.fingerprint ∈ l.marks
  · exact iff_of_true (by rw [reserve_of_mem h]) h
  · exact iff_of_false (by simp [reserve_of_not_mem h]) h

/-- Offering a sample that is marked does what reserving it does. -/
theorem offer_of_mem (sink : Sink σ) (state : σ)
    (h : (c.candidate s).value.fingerprint ∈ l.marks) :
    c.offer sink s ⟨l, state⟩ =
      ⟨(.duplicate, ⟨(c.reserve s l).value.2, state⟩), (c.reserve s l).events⟩ := by
  have hoffer : (c.candidate s).value.offer sink ⟨l, state⟩ = _ := Candidate.offer_of_mem h
  simp only [reserve_of_mem h, offer, bind, Logged.bind, hoffer]

/-- Offering one that is not to a sink that takes it does that too, and hands it over. -/
theorem offer_of_takes {sink : Sink σ} {state : σ} (htakes : sink.Takes state)
    (h : (c.candidate s).value.fingerprint ∉ l.marks) :
    c.offer sink s ⟨l, state⟩ =
      ⟨(.emitted, ⟨(c.reserve s l).value.2,
        (sink.emit state (c.candidate s).value.emission).2⟩), (c.reserve s l).events⟩ := by
  have hanswer : sink.emit state (c.candidate s).value.emission = (.ok (), _) :=
    Prod.ext (htakes _) rfl
  have hoffer : (c.candidate s).value.offer sink ⟨l, state⟩ = _ :=
    Candidate.offer_of_ok h hanswer
  simp only [reserve_of_not_mem h, offer, bind, Logged.bind, hoffer, List.append_nil]

/-- Labels of what was reserved, in any order, have the fingerprint of the sample. -/
theorem fingerprint_of_perm {labels : List (String × String)}
    (h : labels.Perm (c.candidate s).value.emission.labels.toList) :
    Fingerprint.of (c.candidate s).value.emission.name (labels.map Prod.fst)
        (labels.map Prod.snd) (c.candidate s).value.emission.time =
      (c.candidate s).value.fingerprint :=
  Fingerprint.of_perm_toList (c.candidate_labels_wellFormed s) h _ _

/-- A mark that a reservation set is given back, and the check remains counted. -/
theorem unmark_reserve (hl : l.WellFormed)
    (h : (c.candidate s).value.fingerprint ∉ l.marks) :
    (c.reserve s l).value.2.unmark (c.candidate s).value.fingerprint = l.countCheck := by
  rw [reserve_of_not_mem h, Ledger.unmark_withMarks_cons, Ledger.withMarks, ← hl.gauge]
  rfl

/-! ## The law of reservations -/

/-- What it is to reserve a sample, told by what offering it would do and by what its
labels say to the ledger afterwards. -/
structure ReservationLaw (c : Collector) (s : Sample) (l : Ledger) : Prop where
  /-- A sample is reserved exactly when a sink that takes all would get it. -/
  emitted : ∀ {σ : Type} (sink : Sink σ) (state : σ), sink.Takes state →
    ((∃ e, (c.reserve s l).value.1 = some e) ↔
      (c.offer sink s ⟨l, state⟩).value.1 = .emitted)
  /-- What the caller has is then what the sink would have been asked to take, that and
  nothing else; the ledger and the reports are the same. -/
  handed : ∀ {σ : Type} (sink : Sink σ) (state : σ), sink.Takes state →
    ∀ e, (c.reserve s l).value.1 = some e →
      (c.offer sink.recorded s ⟨l, state, []⟩).value =
          (.emitted, ⟨(c.reserve s l).value.2, (sink.emit state e).2, [e]⟩) ∧
        (c.offer sink s ⟨l, state⟩).events = (c.reserve s l).events
  /-- A sample that is not reserved is a duplicate of which no sink hears, be it one that
  takes samples or one that does not. -/
  passed : ∀ {σ : Type} (sink : Sink σ) (state : σ), (c.reserve s l).value.1 = none →
    (c.offer sink.recorded s ⟨l, state, []⟩).value =
        (.duplicate, ⟨(c.reserve s l).value.2, state, []⟩) ∧
      (c.offer sink s ⟨l, state⟩).events = (c.reserve s l).events
  /-- Its name, labels in any order and time are found marked, at once and after all
  calls that do not take the mark away. -/
  found : ∀ e, (c.reserve s l).value.1 = some e →
    ∀ labels : List (String × String), labels.Perm e.labels.toList →
    ∀ calls : List Ledger.Call,
      (∀ call ∈ calls, call.Concerns
        (Fingerprint.of e.name (labels.map Prod.fst) (labels.map Prod.snd) e.time) →
          call.isCheck) →
      ((Ledger.Call.settle calls (c.reserve s l).value.2).checkLabels e.name
        (labels.map Prod.fst) (labels.map Prod.snd) e.time).value.1 = true
  /-- To give the mark back by them leaves marks and gauge as they were before, and the
  sample can be reserved again. -/
  returned : ∀ e, (c.reserve s l).value.1 = some e →
    ∀ labels : List (String × String), labels.Perm e.labels.toList →
    ∀ l', (c.reserve s l).value.2.unmarkLabels e.name (labels.map Prod.fst)
        (labels.map Prod.snd) e.time = l' →
      l'.marks = l.marks ∧ l'.unique = l.unique ∧ (c.reserve s l').value.1 = some e

/-- Reserving a sample, offering it and naming it by its labels agree on its mark. -/
theorem reservationLaw_of_wellFormed (c : Collector) (s : Sample) {l : Ledger}
    (hl : l.WellFormed) : ReservationLaw c s l where
  emitted := by
    intro σ sink state htakes
    by_cases h : (c.candidate s).value.fingerprint ∈ l.marks
    · refine iff_of_false ?_ ?_
      · rintro ⟨e, he⟩
        exact (reserve_eq_some_iff.mp he).1 h
      · rw [offer_of_mem sink state h]
        exact Outcome.noConfusion
    · refine iff_of_true ⟨_, reserve_eq_some_iff.mpr ⟨h, rfl⟩⟩ ?_
      rw [offer_of_takes htakes h]
  handed := by
    intro σ sink state htakes e he
    obtain ⟨h, rfl⟩ := reserve_eq_some_iff.mp he
    rw [offer_of_takes htakes h, offer_of_takes (htakes.recorded []) h]
    exact ⟨rfl, rfl⟩
  passed := by
    intro σ sink state hnone
    have h := reserve_eq_none_iff.mp hnone
    rw [offer_of_mem sink state h, offer_of_mem sink.recorded (state, []) h]
    exact ⟨rfl, rfl⟩
  found := by
    intro e he labels hperm calls hcalls
    obtain ⟨h, rfl⟩ := reserve_eq_some_iff.mp he
    rw [fingerprint_of_perm hperm] at hcalls
    have hmarked : (c.candidate s).value.fingerprint ∈ (c.reserve s l).value.2.marks := by
      rw [reserve_of_not_mem h]
      exact List.mem_cons_self
    have hwell : (c.reserve s l).value.2.WellFormed := by
      rw [reserve_of_not_mem h]
      exact l.countCheck.withMarks_wellFormed (List.nodup_cons.mpr ⟨h, hl.nodup⟩)
    have hstill := Ledger.Call.mem_marks_settle_of_spared hwell hmarked hcalls
    rw [Ledger.checkLabels, fingerprint_of_perm hperm, Ledger.check_of_mem _ hstill]
  returned := by
    rintro e he labels hperm _ rfl
    obtain ⟨h, rfl⟩ := reserve_eq_some_iff.mp he
    rw [Ledger.unmarkLabels, fingerprint_of_perm hperm, unmark_reserve hl h]
    exact ⟨rfl, rfl, reserve_eq_some_iff.mpr ⟨h, rfl⟩⟩

/-- A sample with two labels is reserved on a ledger with one mark, found by its labels in
the other order, and given back by them. -/
theorem reservationLaw_of_wellFormed_zone :
    Ledger.WellFormed ⟨[7], 5, 2, 1⟩ ∧
      ReservationLaw (ofOptions {})
        { name := "up", unit := "s", metric := .ofList [("zone", "eu")] } ⟨[7], 5, 2, 1⟩ ∧
      ∃ l, (reserve (ofOptions {})
          { name := "up", unit := "s", metric := .ofList [("zone", "eu")] } ⟨[7], 5, 2, 1⟩).value =
        (some ⟨"up", ⟨["unit", "zone"], ["s", "eu"]⟩, 0, none⟩, l) ∧
      (l.checkLabels "up" ["zone", "unit"] ["eu", "s"] none).value.1 = true ∧
      (l.unmarkLabels "up" ["zone", "unit"] ["eu", "s"] none).marks = [7] := by
  have hwell : Ledger.WellFormed ⟨[7], 5, 2, 1⟩ := ⟨List.nodup_singleton 7, rfl⟩
  have hlaw := reservationLaw_of_wellFormed (ofOptions {})
    { name := "up", unit := "s", metric := .ofList [("zone", "eu")] } hwell
  have hnew : Fingerprint.of "up" ["unit", "zone"] ["s", "eu"] none ∉ [7] := by
    have hsorted : Labels.sorted [("unit", "s"), ("zone", "eu")] =
        [("unit", "s"), ("zone", "eu")] :=
      List.mergeSort_of_pairwise (List.pairwise_pair.mpr (by decide +kernel))
    have hpairs : Fingerprint.pairs ["unit", "zone"] ["s", "eu"] =
        [("unit", "s"), ("zone", "eu")] := rfl
    rw [Fingerprint.of_eq_hash, Fingerprint.encoding, hpairs, hsorted]
    decide +kernel
  have hemission : ((ofOptions {}).candidate
      { name := "up", unit := "s", metric := .ofList [("zone", "eu")] }).value.emission =
        ⟨"up", ⟨["unit", "zone"], ["s", "eu"]⟩, 0, none⟩ := by decide +kernel
  have hreserved : (reserve (ofOptions {})
      { name := "up", unit := "s", metric := .ofList [("zone", "eu")] } ⟨[7], 5, 2, 1⟩).value.1 =
        some ⟨"up", ⟨["unit", "zone"], ["s", "eu"]⟩, 0, none⟩ := by
    refine reserve_eq_some_iff.mpr ⟨?_, hemission⟩
    rw [fingerprint_candidate, hemission]
    exact hnew
  have hperm : [("zone", "eu"), ("unit", "s")].Perm
      (Labels.mk ["unit", "zone"] ["s", "eu"]).toList := .swap _ _ []
  refine ⟨hwell, hlaw, _, Prod.ext hreserved rfl, ?_, ?_⟩
  · exact hlaw.found _ hreserved _ hperm [] (List.forall_mem_nil _)
  · exact (hlaw.returned _ hreserved _ hperm _ rfl).1

end Collector

end Scrape
