/-
Who answers for a mark.

When threads share a ledger, a mark and the decision about it come apart: a
thread sets the mark, asks its sink, and only then is the mark either there to
stay or to be removed.  In between any other thread may look at the mark.  What
keeps a removal from taking away a mark that somebody else relies on is that
every mark has one owner.  Either it was there before the run, or exactly one
call answers for it: the call that set it and has not come to its end, or the
call whose sink took the sample.

The fingerprints that a thread answers for are its `stake`.  Of the five moves
a thread can make (`Move`) only two change its stake: to mark a candidate adds
its fingerprint to stake and marks alike, to remove a mark takes it from both
(`Move.stake_cases`).  So the marks are at all times the stakes of all threads
and the marks of the start (`Ownership`), and at-most-once emission is read off
from there.

The accepted fingerprints of a crew are read off what its threads have noted.
That they are those the sinks took is part of the law: one by one as the sinks
take them (`accepted_step`), and all together by the sinks' own memory of the run.
-/
import Mathlib.Data.List.Nodup
import Mathlib.Data.List.Perm.Basic
import Scrape.Proofs.Collector.Records

namespace Scrape.Collector

variable {σ : Type}

namespace Thread

/-! ## What a thread answers for -/

/-- The fingerprint of the offer that a thread has begun and not finished. -/
def held (t : Thread σ) : List UInt64 :=
  match t.point with
  | .idle => []
  | .marked c => [c.fingerprint]
  | .refused c => [c.fingerprint]

/-- The fingerprints of the offers that came to an outcome. -/
def ended (o : Outcome) (t : Thread σ) : List UInt64 :=
  (t.outcomes.filter (·.2 = o)).map (·.1.fingerprint)

/-- The fingerprints whose marks are of a thread's making. -/
def stake (t : Thread σ) : List UInt64 :=
  t.held ++ t.ended .emitted

theorem held_of_idle {t : Thread σ} (h : t.point = .idle) : t.held = [] := by
  rw [held, h]

theorem held_of_marked {t : Thread σ} {c : Candidate} (h : t.point = .marked c) :
    t.held = [c.fingerprint] := by
  rw [held, h]

theorem held_of_refused {t : Thread σ} {c : Candidate} (h : t.point = .refused c) :
    t.held = [c.fingerprint] := by
  rw [held, h]

@[simp] theorem held_finish (t : Thread σ) (c : Candidate) (o : Outcome) :
    (t.finish c o).held = [] := rfl

@[simp] theorem ended_finish (t : Thread σ) (c : Candidate) (o o' : Outcome) :
    (t.finish c o).ended o' =
      if o = o' then c.fingerprint :: t.ended o' else t.ended o' := by
  by_cases h : o = o' <;> simp [ended, finish, h]

theorem map_fingerprint_emitted {t : Thread σ}
    (h : ∀ x ∈ t.outcomes, x.1.fingerprint = x.1.emission.fingerprint) :
    t.emitted.map Emission.fingerprint = t.ended .emitted := by
  rw [emitted, ended, List.map_map]
  exact List.map_congr_left fun x hx => (h x (List.mem_of_mem_filter hx)).symm

/-- A move leaves stake and marks alone, or adds one fingerprint to both, or
takes one from both. -/
theorem Move.stake_cases {t t' : Thread σ} {l l' : Ledger} (h : Move t l t' l') :
    (t'.stake = t.stake ∧ l'.marks = l.marks) ∨
    (∃ s, s ∉ l.marks ∧ t'.stake = s :: t.stake ∧ l'.marks = s :: l.marks) ∨
    (∃ s, t.stake = s :: t'.stake ∧ l'.marks = l.marks.erase s) := by
  cases h with
  | drop hp hc hm =>
      refine .inl ⟨?_, rfl⟩
      rw [stake, stake, held_of_idle hp]
      rfl
  | @mark c rest hp hc hm =>
      refine .inr (.inl ⟨c.fingerprint, hm, ?_, rfl⟩)
      rw [stake, stake, held_of_idle hp]
      rfl
  | accept hp he =>
      -- the fingerprint moves from what is held to what was accepted
      refine .inl ⟨?_, rfl⟩
      rw [stake, stake, held_of_marked hp, held_finish, ended_finish, if_pos rfl]
      rfl
  | refuse hp he =>
      refine .inl ⟨?_, rfl⟩
      rw [stake, stake, held_of_marked hp]
      rfl
  | @remove c hp =>
      refine .inr (.inr ⟨c.fingerprint, ?_, rfl⟩)
      rw [stake, stake, held_of_refused hp, held_finish, ended_finish, if_neg (by decide)]
      rfl

/-- A move adds to the accepted fingerprints when the sink takes a candidate,
and only then. -/
theorem Move.accepted_cases {t t' : Thread σ} {l l' : Ledger} (h : Move t l t' l') :
    (∃ c state, t.point = .marked c ∧ t.sink.emit t.state c.emission = (.ok (), state) ∧
      t'.ended .emitted = c.fingerprint :: t.ended .emitted) ∨
    ((∀ c state, t.point = .marked c → t.sink.emit t.state c.emission ≠ (.ok (), state)) ∧
      t'.ended .emitted = t.ended .emitted) := by
  cases h with
  | drop hp hc hm =>
      refine .inr ⟨fun c state hp' => ?_, rfl⟩
      cases hp.symm.trans hp'
  | mark hp hc hm =>
      refine .inr ⟨fun c state hp' => ?_, rfl⟩
      cases hp.symm.trans hp'
  | @accept c state hp he =>
      exact .inl ⟨c, state, hp, he, by rw [ended_finish, if_pos rfl]; rfl⟩
  | refuse hp he =>
      refine .inr ⟨fun c state hp' he' => ?_, rfl⟩
      cases hp.symm.trans hp'
      cases he.symm.trans he'
  | remove hp =>
      refine .inr ⟨fun c state hp' => ?_, rfl⟩
      cases hp.symm.trans hp'

end Thread

/-! ## What a crew answers for -/

namespace Crew

open Thread (Move)

/-- The fingerprints of the calls that are between their mark and their end. -/
def held (w : Crew σ) : List UInt64 :=
  w.threads.flatMap Thread.held

/-- The fingerprints of the calls that ended with an outcome. -/
def ended (w : Crew σ) (o : Outcome) : List UInt64 :=
  w.threads.flatMap (Thread.ended o)

/-- The fingerprints of the calls that ended with their candidate emitted. -/
def accepted (w : Crew σ) : List UInt64 :=
  w.ended .emitted

def stake (w : Crew σ) : List UInt64 :=
  w.threads.flatMap Thread.stake

/-- Every stake is held or was accepted. -/
theorem stake_perm (w : Crew σ) : w.stake.Perm (w.held ++ w.accepted) :=
  (List.flatMap_append_perm w.threads Thread.held (Thread.ended .emitted)).symm

/-- `Move.stake_cases` for the stakes of all threads together. -/
theorem stake_cases (w : Crew σ) (i : Nat) :
    ((w.step i).stake.Perm w.stake ∧ (w.step i).ledger.marks = w.ledger.marks) ∨
    (∃ s, s ∉ w.ledger.marks ∧ (w.step i).stake.Perm (s :: w.stake) ∧
      (w.step i).ledger.marks = s :: w.ledger.marks) ∨
    (∃ s, w.stake.Perm (s :: (w.step i).stake) ∧
      (w.step i).ledger.marks = w.ledger.marks.erase s) := by
  obtain ⟨h, -⟩ | ⟨pre, t, post, t', hw, -, hw', hmove⟩ := w.step_cases i
  · exact .inl ⟨by rw [h], by rw [h]⟩
  have hstake : w.stake = _ := flatMap_threads hw Thread.stake
  have hstake' : (w.step i).stake = _ := flatMap_threads hw' Thread.stake
  obtain ⟨hs, hm⟩ | ⟨s, hn, hs, hm⟩ | ⟨s, hs, hm⟩ := hmove.stake_cases
  · exact .inl ⟨by rw [hstake, hstake', hs], hm⟩
  · refine .inr (.inl ⟨s, hn, ?_, hm⟩)
    rw [hstake, hstake', hs]
    exact List.perm_middle
  · refine .inr (.inr ⟨s, ?_, hm⟩)
    rw [hstake, hstake', hs]
    exact List.perm_middle

/-- The accepted fingerprints are what the sinks say: one more where a sink takes
a candidate, and the same otherwise. -/
theorem accepted_step (w : Crew σ) (i : Nat) :
    (∃ t c state, w.threads[i]? = some t ∧ t.point = .marked c ∧
      t.sink.emit t.state c.emission = (.ok (), state) ∧
      (w.step i).accepted.Perm (c.fingerprint :: w.accepted)) ∨
    ((∀ t c state, w.threads[i]? = some t → t.point = .marked c →
      t.sink.emit t.state c.emission ≠ (.ok (), state)) ∧
      (w.step i).accepted.Perm w.accepted) := by
  obtain ⟨h, hidle⟩ | ⟨pre, t, post, t', hw, ht, hw', hmove⟩ := w.step_cases i
  · refine .inr ⟨?_, by rw [h]⟩
    intro t c state ht hp
    have hpoint := (hidle t ht).2
    rw [hp] at hpoint
    cases hpoint
  · have haccepted : w.accepted = _ := flatMap_threads hw (Thread.ended .emitted)
    have haccepted' : (w.step i).accepted = _ := flatMap_threads hw' (Thread.ended .emitted)
    rw [haccepted, haccepted']
    obtain ⟨c, state, hp, he, h⟩ | ⟨hnone, h⟩ := hmove.accepted_cases
    · refine .inl ⟨t, c, state, ht, hp, he, ?_⟩
      rw [h]
      exact List.perm_middle
    · refine .inr ⟨?_, by rw [h]⟩
      intro u c state hu hp
      obtain rfl : t = u := Option.some.inj (ht.symm.trans hu)
      exact hnone c state hp

/-! ## Every mark has one owner -/

/-- The marks are the stakes and the marks of the ledger `l` from which the
crew started; no fingerprint is at stake twice, and none that was marked at the
start. -/
structure Ownership (l : Ledger) (w : Crew σ) : Prop where
  conserved : w.ledger.marks.Perm (w.stake ++ l.marks)
  single : w.stake.Nodup
  fresh : ∀ s ∈ w.stake, s ∉ l.marks

theorem start_stake (l : Ledger) (desks : List (Desk σ)) : (start l desks).stake = [] := by
  rw [stake, List.flatMap_eq_nil_iff]
  intro t ht
  obtain ⟨d, -, rfl⟩ := List.mem_map.mp ht
  rfl

theorem start_ownership (l : Ledger) (desks : List (Desk σ)) :
    Ownership l (start l desks) where
  conserved := by rw [start_stake]; exact .refl _
  single := by rw [start_stake]; exact .nil
  fresh := by simp [start_stake]

theorem Ownership.step {l : Ledger} {w : Crew σ} (h : Ownership l w) (i : Nat) :
    Ownership l (w.step i) := by
  obtain ⟨hs, hm⟩ | ⟨s, hn, hs, hm⟩ | ⟨s, hs, hm⟩ := w.stake_cases i
  · refine ⟨?_, hs.nodup_iff.mpr h.single, fun s hmem => h.fresh s (hs.mem_iff.mp hmem)⟩
    rw [hm]
    exact h.conserved.trans (hs.symm.append_right _)
  · -- a new mark is nobody's: all that is at stake, or was marked before, is marked
    have hnew : s ∉ w.stake ++ l.marks := fun hmem => hn (h.conserved.mem_iff.mpr hmem)
    rw [List.mem_append, not_or] at hnew
    refine ⟨?_, hs.nodup_iff.mpr (List.nodup_cons.mpr ⟨hnew.1, h.single⟩), ?_⟩
    · rw [hm]
      exact (h.conserved.cons s).trans (hs.symm.append_right _)
    · intro a ha
      obtain rfl | ha := List.mem_cons.mp (hs.mem_iff.mp ha)
      · exact hnew.2
      · exact h.fresh a ha
  · -- the mark that goes is the one its owner has given up
    refine ⟨?_, (List.nodup_cons.mp (hs.nodup_iff.mp h.single)).2, ?_⟩
    · have hmarks := (h.conserved.trans (hs.append_right l.marks)).erase s
      rw [List.cons_append, List.erase_cons_head] at hmarks
      rwa [hm]
    · intro a ha
      exact h.fresh a (hs.mem_iff.mpr (List.mem_cons_of_mem s ha))

theorem Ownership.run {l : Ledger} {w : Crew σ} (h : Ownership l w) (picks : List Nat) :
    Ownership l (w.run picks) :=
  Team.run_of_step (motive := Ownership l) (fun _ i h => Ownership.step h i) h picks

theorem Ownership.nodup {l : Ledger} {w : Crew σ} (h : Ownership l w) :
    (w.held ++ w.accepted).Nodup :=
  w.stake_perm.nodup_iff.mp h.single

theorem Ownership.marks_perm {l : Ledger} {w : Crew σ} (h : Ownership l w) :
    w.ledger.marks.Perm (w.held ++ w.accepted ++ l.marks) :=
  h.conserved.trans (w.stake_perm.append_right l.marks)

theorem Ownership.not_mem_accepted {l : Ledger} {w : Crew σ} (h : Ownership l w) {s : UInt64}
    (hs : s ∈ l.marks) : s ∉ w.accepted :=
  fun ha => h.fresh s (w.stake_perm.mem_iff.mpr (List.mem_append_right _ ha)) hs

/-- A new mark has one owner, and what is not marked has none. -/
theorem Ownership.count_eq {l : Ledger} {w : Crew σ} (h : Ownership l w) {s : UInt64}
    (hs : s ∉ l.marks) :
    w.held.count s + w.accepted.count s = if s ∈ w.ledger.marks then 1 else 0 := by
  have hmem : s ∈ w.held ++ w.accepted ↔ s ∈ w.ledger.marks := by
    rw [h.marks_perm.mem_iff, List.mem_append (t := l.marks), or_iff_left hs]
  rw [← List.count_append, h.nodup.count]
  exact if_congr hmem rfl rfl

/-! ## At-most-once emission -/

/-- What can be said of a crew that shares a ledger, at every point of a run
that began with the ledger `l` and the calls of some desks.  The sinks' own
memory of the run is `memory`. -/
structure AtMostOnce (l : Ledger) (desks : List (Desk σ)) (w : Crew σ)
    (memory : List Emission) : Prop where
  /-- Every thread makes the calls of its desk, in their order and no others. -/
  offers : w.threads.map Thread.offers = desks.map Desk.offers
  /-- What counts as accepted is what the sinks took. -/
  taken : memory.map Emission.fingerprint = w.accepted
  /-- One more is accepted with each step in which a sink takes a candidate, and
  none with any other step. -/
  accepts : ∀ i,
    (∃ t c state, w.threads[i]? = some t ∧ t.point = .marked c ∧
      t.sink.emit t.state c.emission = (.ok (), state) ∧
      (w.step i).accepted.Perm (c.fingerprint :: w.accepted)) ∨
    ((∀ t c state, w.threads[i]? = some t → t.point = .marked c →
      t.sink.emit t.state c.emission ≠ (.ok (), state)) ∧
      (w.step i).accepted.Perm w.accepted)
  /-- No fingerprint is accepted twice, whichever sinks take it. -/
  once : w.accepted.Nodup
  /-- What was marked at the start is accepted by no sink, and stays marked. -/
  fresh : ∀ s ∈ l.marks, s ∉ w.accepted ∧ s ∈ w.ledger.marks
  /-- For each fingerprint one call at most is between its mark and its end. -/
  exclusive : w.held.Nodup
  /-- A fingerprint that was not marked at the start has one owner exactly as
  long as it is marked, and none otherwise. -/
  owner : ∀ s ∉ l.marks,
    w.held.count s + w.accepted.count s = if s ∈ w.ledger.marks then 1 else 0
  /-- When all calls have returned, the marks are those of the start and those
  that were accepted. -/
  settled : w.done → w.ledger.marks.Perm (w.accepted ++ l.marks)
  /-- A call that no other thread interrupts is the call of a single thread. -/
  alone : ∀ i t c rest, w.threads[i]? = some t → t.point = .idle → t.candidates = c :: rest →
    ∃ n, w.run (List.replicate n i) = w.offered i t c rest
  /-- From here all calls can return. -/
  returns : ∃ more, (w.run more).done

theorem held_of_done {w : Crew σ} (h : w.done) : w.held = [] := by
  rw [held, List.flatMap_eq_nil_iff]
  intro t ht
  exact Thread.held_of_idle (h t ht).2

/-- Any number of threads may call collectors that share a ledger, each with a
sink that takes and refuses as it likes: however their steps are interleaved,
at every point of the run every fingerprint has been emitted at most once. -/
theorem atMostOnce_of_calls (l : Ledger) (desks : List (Desk σ)) (picks : List Nat) :
    AtMostOnce l desks ((start l desks).run picks)
      ((start l (desks.map Desk.kept)).run picks).memory := by
  have h := (start_ownership l desks).run picks
  constructor
  case offers => exact offers_run l desks picks
  case taken =>
    rw [memory_run, List.map_flatMap]
    exact List.flatMap_congr fun t ht => Thread.map_fingerprint_emitted fun x hx =>
      fingerprint_of_run ht hx
  case accepts => exact accepted_step _
  case once => exact h.nodup.of_append_right
  case fresh =>
    exact fun s hs => ⟨h.not_mem_accepted hs,
      h.marks_perm.mem_iff.mpr (List.mem_append_right _ hs)⟩
  case exclusive => exact h.nodup.of_append_left
  case owner => exact fun s hs => h.count_eq hs
  case settled =>
    intro hdone
    have hmarks := h.marks_perm
    rwa [held_of_done hdone, List.nil_append] at hmarks
  case alone => exact fun _ _ _ _ => run_offer
  case returns => exact exists_run_done _

end Crew

end Scrape.Collector
