/-
What sinks remember of a run.

A thread notes the outcomes of its offers, and might note anything.  What was
emitted is not for the thread to say but for its sink.  So every sink is given a
memory that only the sink writes (`Sink.kept`): it holds what the sink took, and
no answer depends on it.

With and without memories a crew makes the same run: a thread whose sink
remembers is the thread itself, with what it counts as emitted in the memory
(`Thread.kept`), and the two move in lockstep (`step?_kept`).  So at every point
the memories are what the threads count as emitted (`memory_run`).  And no
thread loses a candidate or makes one up: those it has dealt with, the one under
way and those to come are what its desk was given (`offers_run`).
-/
import Scrape.Proofs.Collector.Moves

namespace Scrape

variable {σ : Type}

/-- A sink that also keeps what it takes, the latest first. -/
def Sink.kept (sink : Sink σ) : Sink (σ × List Emission) where
  emit memory e :=
    match sink.emit memory.1 e with
    | (.ok (), state) => (.ok (), state, e :: memory.2)
    | (.error fault, state) => (.error fault, state, memory.2)

namespace Collector

/-- The candidates of the calls of a desk, in their order. -/
def Desk.offers (d : Desk σ) : List Candidate :=
  d.calls.map fun call => (call.1.candidate call.2).value

/-- The desk with a sink that keeps what it takes. -/
def Desk.kept (d : Desk σ) : Desk (σ × List Emission) where
  calls := d.calls
  sink := d.sink.kept
  state := (d.state, [])

namespace Thread

variable {t t' : Thread σ} {l l' : Ledger}

/-! ## The candidates of a thread -/

/-- The candidate of the offer that a thread has begun and not finished. -/
def underway (t : Thread σ) : List Candidate :=
  match t.point with
  | .idle => []
  | .marked c => [c]
  | .refused c => [c]

/-- The candidates a thread has dealt with, the one under way and those to come. -/
def offers (t : Thread σ) : List Candidate :=
  (t.outcomes.map (·.1)).reverse ++ t.underway ++ t.candidates

theorem Move.offers_eq (h : Move t l t' l') : t'.offers = t.offers := by
  cases h with
  | drop hp hc hm => simp [offers, underway, finish, hp, hc]
  | mark hp hc hm => simp [offers, underway, hp, hc]
  | accept hp he => simp [offers, underway, finish, hp]
  | refuse hp he => simp [offers, underway, hp]
  | remove hp => simp [offers, underway, finish, hp]

/-! ## Threads whose sinks remember -/

/-- What a thread counts as emitted, the latest first. -/
def emitted (t : Thread σ) : List Emission :=
  (t.outcomes.filter (·.2 = .emitted)).map (·.1.emission)

/-- The thread with a sink that remembers what the thread counts as emitted. -/
def kept (t : Thread σ) : Thread (σ × List Emission) where
  candidates := t.candidates
  sink := t.sink.kept
  state := (t.state, t.emitted)
  point := t.point
  outcomes := t.outcomes

/-- A thread does not notice that its sink remembers, and the memory stays what it
counts as emitted. -/
theorem step?_kept (t : Thread σ) (l : Ledger) :
    t.kept.step? l = (t.step? l).map (Functor.map (Prod.map kept id)) := by
  cases hp : t.point with
  | idle =>
      cases hc : t.candidates with
      | nil =>
          rw [step?_of_nil hp hc]
          exact step?_of_nil hp hc
      | cons c rest =>
          by_cases hm : c.fingerprint ∈ l.marks
          · rw [step?_of_mem hp hc hm]
            exact step?_of_mem hp hc hm
          · rw [step?_of_not_mem hp hc hm]
            exact step?_of_not_mem hp hc hm
  | marked c =>
      cases he : t.sink.emit t.state c.emission with
      | mk answer state =>
          cases answer with
          | ok u =>
              have hkept : t.kept.sink.emit t.kept.state c.emission =
                  (.ok (), state, c.emission :: t.emitted) := by
                simp only [kept, Sink.kept, he]
              rw [step?_of_ok hp he]
              exact step?_of_ok hp hkept
          | error fault =>
              have hkept : t.kept.sink.emit t.kept.state c.emission =
                  (.error fault, state, t.emitted) := by
                simp only [kept, Sink.kept, he]
              rw [step?_of_error hp he]
              exact step?_of_error hp hkept
  | refused c =>
      rw [step?_of_refused hp]
      exact step?_of_refused hp

end Thread

namespace Crew

/-- What the sinks of a crew have in memory. -/
def memory (w : Crew (σ × List Emission)) : List Emission :=
  w.threads.flatMap (·.state.2)

theorem memory_run (l : Ledger) (desks : List (Desk σ)) (picks : List Nat) :
    ((start l (desks.map Desk.kept)).run picks).memory =
      ((start l desks).run picks).threads.flatMap Thread.emitted := by
  have hstart : start l (desks.map Desk.kept) = Team.map Thread.kept (start l desks) := by
    simp only [start, Team.map, List.map_map]
    rfl
  rw [hstart, run, Team.run_map Thread.step?_kept, memory, Team.map, List.flatMap_map]
  rfl

/-- No run changes what the threads have to offer in all. -/
theorem offers_run (l : Ledger) (desks : List (Desk σ)) (picks : List Nat) :
    ((start l desks).run picks).threads.map Thread.offers = desks.map Desk.offers := by
  refine Team.run_of_step (motive := fun w => w.threads.map Thread.offers = _) ?_ ?_ picks
  · intro (w : Crew σ) i h
    obtain ⟨hstep, -⟩ | ⟨pre, t, post, t', hw, -, hw', hmove⟩ := step_cases w i
    · exact (congrArg (fun u : Crew σ => u.threads.map Thread.offers) hstep).trans h
    · have hoffers : (w.step i).threads.map Thread.offers = w.threads.map Thread.offers := by
        rw [hw, hw', List.map_append, List.map_append, List.map_cons, List.map_cons,
          hmove.offers_eq]
      exact hoffers.trans h
  · simp only [start, List.map_map]
    rfl

/-- So whatever comes to an outcome goes by the fingerprint of what the sink was shown. -/
theorem fingerprint_of_run {l : Ledger} {desks : List (Desk σ)} {picks : List Nat} {t : Thread σ}
    (ht : t ∈ ((start l desks).run picks).threads) {x : Candidate × Outcome}
    (hx : x ∈ t.outcomes) : x.1.fingerprint = x.1.emission.fingerprint := by
  have hoffers : t.offers ∈ desks.map Desk.offers := by
    rw [← offers_run l desks picks]
    exact List.mem_map_of_mem ht
  obtain ⟨d, -, hd⟩ := List.mem_map.mp hoffers
  have hc : x.1 ∈ d.offers := by
    rw [hd, Thread.offers, List.append_assoc, List.mem_append, List.mem_reverse]
    exact .inl (List.mem_map_of_mem hx)
  obtain ⟨call, -, hcall⟩ := List.mem_map.mp hc
  rw [← hcall]
  exact call.1.fingerprint_candidate call.2

end Crew

end Collector

end Scrape
