/-
Duplicates of samples that nobody took.

A duplicate is reported when a mark is found, and a mark is set before its sink
is asked.  So a call may overtake another one: it finds the mark of a sample
whose sink is still to decide, calls its own copy a duplicate and returns.  If
the sink then refuses, the mark goes, the sample is reported as failed, and the
copy that another sink might have taken is gone with it.

This module says exactly when that happens.  A fingerprint is dropped because it
is marked, and by `Ownership` a mark is one of the start, or was accepted, or is
held by a call under way; only the last can fail to be made good.  So the
duplicates of a run all have an emission, or a mark of the start, to stand for
them if and only if every fingerprint that was overtaken was accepted in the end
(`dropped_law`).  `exists_dropped_unaccepted` is the shortest run in which one
was not.
-/
import Scrape.Proofs.Collector.Ownership

namespace Scrape.Collector

variable {σ : Type}

/-! ## What a move adds to the outcomes -/

namespace Thread

variable {t t' : Thread σ} {l l' : Ledger}

/-- The fingerprints that a thread has marked at some time and still holds, or
has brought to a sink. -/
def attempted (t : Thread σ) : List UInt64 :=
  t.stake ++ t.ended .failed

theorem Move.ended_subset (h : Move t l t' l') (o : Outcome) : t.ended o ⊆ t'.ended o := by
  have hfinish : ∀ (u : Thread σ) (c : Candidate) (o' : Outcome),
      u.ended o ⊆ (u.finish c o').ended o := by
    intro u c o' s hs
    rw [ended_finish]
    by_cases ho : o' = o
    · rw [if_pos ho]
      exact List.mem_cons_of_mem _ hs
    · rwa [if_neg ho]
  cases h with
  | drop hp hc hm => exact hfinish _ _ _
  | mark hp hc hm => exact List.Subset.refl _
  | accept hp he => exact hfinish _ _ _
  | refuse hp he => exact List.Subset.refl _
  | remove hp => exact hfinish _ _ _

theorem Move.attempted_subset (h : Move t l t' l') : t.attempted ⊆ t'.attempted := by
  intro s hs
  rw [attempted, List.mem_append] at hs ⊢
  obtain hs | hs := hs
  · cases h with
    | drop hp hc hm =>
        rw [stake, held_of_idle hp] at hs
        exact .inl hs
    | mark hp hc hm =>
        rw [stake, held_of_idle hp] at hs
        exact .inl (List.mem_cons_of_mem _ hs)
    | accept hp he =>
        rw [stake, held_of_marked hp] at hs
        exact .inl hs
    | refuse hp he =>
        rw [stake, held_of_marked hp] at hs
        exact .inl hs
    | remove hp =>
        -- the refused candidate is held no more, and has failed
        rw [stake, held_of_refused hp] at hs
        obtain rfl | hs := List.mem_cons.mp hs
        · exact .inr List.mem_cons_self
        · exact .inl hs
  · exact .inr (h.ended_subset .failed hs)

/-- A duplicate is an old one, or the next candidate of a thread that was between
offers, and marked. -/
theorem Move.mem_dropped (h : Move t l t' l') {s : UInt64} (hs : s ∈ t'.ended .duplicate) :
    s ∈ t.ended .duplicate ∨
      s ∈ l.marks ∧ t.point = .idle ∧ ∃ c rest, t.candidates = c :: rest ∧ c.fingerprint = s := by
  cases h with
  | @drop c rest hp hc hm =>
      rw [ended_finish, if_pos rfl, List.mem_cons] at hs
      obtain rfl | hs := hs
      · exact .inr ⟨hm, hp, c, rest, hc, rfl⟩
      · exact .inl hs
  | mark hp hc hm => exact .inl hs
  | accept hp he => exact .inl hs
  | refuse hp he => exact .inl hs
  | remove hp => exact .inl hs

end Thread

/-! ## What a run adds to them -/

namespace Crew

open Thread (Move)

/-- The fingerprints that were reported as duplicates. -/
def dropped (w : Crew σ) : List UInt64 :=
  w.ended .duplicate

/-- The fingerprints that some sink refused. -/
def failed (w : Crew σ) : List UInt64 :=
  w.ended .failed

def attempted (w : Crew σ) : List UInt64 :=
  w.threads.flatMap Thread.attempted

section Monotone

variable {f : Thread σ → List UInt64}
  (hf : ∀ {t t' : Thread σ} {l l' : Ledger}, Move t l t' l' → f t ⊆ f t')
include hf

/-- What no move takes from a thread, no step takes from the crew. -/
theorem flatMap_subset_step (w : Crew σ) (i : Nat) :
    w.threads.flatMap f ⊆ (w.step i).threads.flatMap f := by
  obtain ⟨h, -⟩ | ⟨pre, t, post, t', hw, -, hw', hmove⟩ := w.step_cases i
  · rw [h]
    exact List.Subset.refl _
  · intro s hs
    rw [flatMap_threads hw] at hs
    rw [flatMap_threads hw']
    simp only [List.mem_append] at hs ⊢
    exact hs.imp_right (Or.imp_left fun h => hf hmove h)

theorem flatMap_subset_run (w : Crew σ) (picks : List Nat) :
    w.threads.flatMap f ⊆ (w.run picks).threads.flatMap f := by
  refine Team.run_of_step (motive := fun u => w.threads.flatMap f ⊆ u.threads.flatMap f) ?_
    (List.Subset.refl _) picks
  exact fun u i h => List.Subset.trans h (flatMap_subset_step hf u i)

end Monotone

theorem ended_subset_run (w : Crew σ) (picks : List Nat) (o : Outcome) :
    w.ended o ⊆ (w.run picks).ended o :=
  flatMap_subset_run (fun h => h.ended_subset o) w picks

theorem attempted_subset_run (w : Crew σ) (picks : List Nat) :
    w.attempted ⊆ (w.run picks).attempted :=
  flatMap_subset_run Thread.Move.attempted_subset w picks

theorem mem_attempted {w : Crew σ} {s : UInt64} :
    s ∈ w.attempted ↔ s ∈ w.stake ∨ s ∈ w.failed := by
  simp only [attempted, stake, failed, ended, List.mem_flatMap, Thread.attempted,
    List.mem_append]
  constructor
  · rintro ⟨t, ht, hs | hs⟩
    · exact .inl ⟨t, ht, hs⟩
    · exact .inr ⟨t, ht, hs⟩
  · rintro (⟨t, ht, hs⟩ | ⟨t, ht, hs⟩)
    · exact ⟨t, ht, .inl hs⟩
    · exact ⟨t, ht, .inr hs⟩

/-! ## Overtaking -/

/-- The thread that is picked is about to offer a fingerprint whose mark is held
by a call under way. -/
def Overtakes (w : Crew σ) (i : Nat) (s : UInt64) : Prop :=
  s ∈ w.held ∧ ∃ t c rest, w.threads[i]? = some t ∧ t.point = .idle ∧
    t.candidates = c :: rest ∧ c.fingerprint = s

/-- At some point of the run a fingerprint is overtaken. -/
def Overtaken (w : Crew σ) : List Nat → UInt64 → Prop
  | [], _ => False
  | i :: picks, s => w.Overtakes i s ∨ (w.step i).Overtaken picks s

/-- A new duplicate has a mark of the start to stand for it, or an emission, or
it overtakes. -/
theorem mem_dropped_step {l : Ledger} {w : Crew σ} (h : Ownership l w) {i : Nat} {s : UInt64}
    (hs : s ∈ (w.step i).dropped) :
    s ∈ w.dropped ∨ s ∈ l.marks ∨ s ∈ w.accepted ∨ w.Overtakes i s := by
  obtain ⟨e, -⟩ | ⟨pre, t, post, t', hw, ht, hw', hmove⟩ := w.step_cases i
  · rw [e] at hs
    exact .inl hs
  rw [dropped, ended, flatMap_threads hw'] at hs
  rw [dropped, ended, flatMap_threads hw]
  simp only [List.mem_append] at hs ⊢
  obtain hs | hs | hs := hs
  · exact .inl (.inl hs)
  · obtain hs | ⟨hm, hp, c, rest, hc, he⟩ := hmove.mem_dropped hs
    · exact .inl (.inr (.inl hs))
    · have howner := h.conserved.mem_iff.mp hm
      rw [List.mem_append, w.stake_perm.mem_iff, List.mem_append] at howner
      obtain (hheld | haccepted) | hstart := howner
      · exact .inr (.inr (.inr ⟨hheld, t, c, rest, ht, hp, hc, he⟩))
      · exact .inr (.inr (.inl haccepted))
      · exact .inr (.inl hstart)
  · exact .inl (.inr (.inr hs))

/-- To overtake is to be dropped. -/
theorem Overtakes.mem_dropped {l : Ledger} {w : Crew σ} (h : Ownership l w) {i : Nat}
    {s : UInt64} (hs : w.Overtakes i s) : s ∈ (w.step i).dropped ∧ s ∉ l.marks := by
  obtain ⟨hheld, t, c, rest, ht, hp, hc, rfl⟩ := hs
  have hstake : c.fingerprint ∈ w.stake :=
    w.stake_perm.mem_iff.mpr (List.mem_append_left _ hheld)
  have hm : c.fingerprint ∈ w.ledger.marks :=
    h.conserved.mem_iff.mpr (List.mem_append_left _ hstake)
  refine ⟨?_, h.fresh _ hstake⟩
  have ht' := Team.getElem?_step ht (Thread.step?_of_mem hp hc hm)
  refine List.mem_flatMap.mpr ⟨_, List.mem_of_getElem? ht', ?_⟩
  rw [Thread.ended_finish, if_pos rfl]
  exact List.mem_cons_self

theorem Overtaken.mem_dropped {l : Ledger} {w : Crew σ} (h : Ownership l w) {picks : List Nat}
    {s : UInt64} (hs : w.Overtaken picks s) : s ∈ (w.run picks).dropped ∧ s ∉ l.marks := by
  induction picks generalizing w with
  | nil => exact hs.elim
  | cons i picks ih =>
      cases hs with
      | inl hs =>
          obtain ⟨hdropped, hstart⟩ := hs.mem_dropped h
          exact ⟨ended_subset_run (w.step i) picks .duplicate hdropped, hstart⟩
      | inr hs => exact ih (h.step i) hs

/-- Along a run: a duplicate is an old one, or has a mark of the start to stand
for it, or an emission, or was overtaken. -/
theorem mem_dropped_run {l : Ledger} {w : Crew σ} (h : Ownership l w) {picks : List Nat}
    {s : UInt64} (hs : s ∈ (w.run picks).dropped) :
    s ∈ w.dropped ∨ s ∈ l.marks ∨ s ∈ (w.run picks).accepted ∨ w.Overtaken picks s := by
  induction picks generalizing w with
  | nil => exact .inl hs
  | cons i picks ih =>
      obtain hs | hs | hs | hs := ih (h.step i) hs
      · obtain hs | hs | hs | hs := mem_dropped_step h hs
        · exact .inl hs
        · exact .inr (.inl hs)
        · exact .inr (.inr (.inl (ended_subset_run w (i :: picks) .emitted hs)))
        · exact .inr (.inr (.inr (.inl hs)))
      · exact .inr (.inl hs)
      · exact .inr (.inr (.inl hs))
      · exact .inr (.inr (.inr (.inr hs)))

/-- What is overtaken was attempted, and stays so. -/
theorem Overtaken.mem_attempted {w : Crew σ} {picks : List Nat} {s : UInt64}
    (hs : w.Overtaken picks s) : s ∈ (w.run picks).attempted := by
  induction picks generalizing w with
  | nil => exact hs.elim
  | cons i picks ih =>
      cases hs with
      | inl hs =>
          have hstake : s ∈ w.stake := w.stake_perm.mem_iff.mpr (List.mem_append_left _ hs.1)
          exact attempted_subset_run w (i :: picks) (Crew.mem_attempted.mpr (.inl hstake))
      | inr hs => exact ih hs

/-! ## When duplicates are duplicates -/

theorem start_dropped (l : Ledger) (desks : List (Desk σ)) : (start l desks).dropped = [] := by
  rw [dropped, ended, List.flatMap_eq_nil_iff]
  intro t ht
  obtain ⟨d, -, rfl⟩ := List.mem_map.mp ht
  rfl

/-- A fingerprint that was reported as a duplicate has an emission or a mark of
the start to stand for it exactly if it was not overtaken or was accepted all
the same.  When all calls have returned, one that has neither was refused. -/
theorem dropped_law (l : Ledger) (desks : List (Desk σ)) (picks : List Nat) (s : UInt64) :
    ((s ∈ ((start l desks).run picks).dropped →
        s ∈ l.marks ∨ s ∈ ((start l desks).run picks).accepted) ↔
      ((start l desks).Overtaken picks s → s ∈ ((start l desks).run picks).accepted)) ∧
    (((start l desks).run picks).done → s ∈ ((start l desks).run picks).dropped →
      s ∈ l.marks ∨ s ∈ ((start l desks).run picks).accepted ∨
        s ∈ ((start l desks).run picks).failed) := by
  have h := start_ownership l desks
  have hcases : s ∈ ((start l desks).run picks).dropped → s ∈ l.marks ∨
      s ∈ ((start l desks).run picks).accepted ∨ (start l desks).Overtaken picks s := by
    intro hs
    have hrun := mem_dropped_run h hs
    rw [start_dropped] at hrun
    exact hrun.resolve_left List.not_mem_nil
  refine ⟨⟨?_, ?_⟩, ?_⟩
  · intro hjust hover
    obtain ⟨hdropped, hstart⟩ := hover.mem_dropped h
    exact (hjust hdropped).resolve_left hstart
  · intro hjust hdropped
    obtain hs | hs | hs := hcases hdropped
    · exact .inl hs
    · exact .inr hs
    · exact .inr (hjust hs)
  · intro hdone hdropped
    obtain hs | hs | hs := hcases hdropped
    · exact .inl hs
    · exact .inr (.inl hs)
    · have hattempted := Crew.mem_attempted.mp hs.mem_attempted
      rw [stake_perm _ |>.mem_iff, held_of_done hdone, List.nil_append] at hattempted
      exact .inr hattempted

/-- Two threads with a copy of one sample each; only the sink of the first
refuses it. -/
def rivals : List (Desk Nat) :=
  [⟨[(ofOptions {}, { name := "m" })], .reluctant (.sink "closed"), 1⟩,
    ⟨[(ofOptions {}, { name := "m" })], .reluctant (.sink "closed"), 0⟩]

/-- The first thread marks its copy, the second finds the mark and returns, and
then the sink of the first refuses: a duplicate of nothing. -/
theorem exists_dropped_unaccepted :
    ¬ ∀ (l : Ledger) (desks : List (Desk Nat)) (picks : List Nat),
      ((start l desks).run picks).done →
      ∀ s ∈ ((start l desks).run picks).dropped,
        s ∈ l.marks ∨ s ∈ ((start l desks).run picks).accepted := by
  intro h
  have hdone : ((start Ledger.empty rivals).run [0, 1, 0, 0]).done := by
    unfold done
    decide +kernel
  have hdropped : ((ofOptions {}).candidate { name := "m" }).value.fingerprint ∈
      ((start Ledger.empty rivals).run [0, 1, 0, 0]).dropped := by
    decide +kernel
  have hlost : ((ofOptions {}).candidate { name := "m" }).value.fingerprint ∉
      ((start Ledger.empty rivals).run [0, 1, 0, 0]).accepted := by
    decide +kernel
  exact hlost ((h _ _ _ hdone _ hdropped).resolve_left List.not_mem_nil)

end Crew

end Scrape.Collector
