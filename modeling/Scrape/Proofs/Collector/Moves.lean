/-
Threads at work, move by move.

The calls of a thread are offers that may be interrupted.  A step of a thread is
one of five moves (`Move`): it drops a candidate that is marked, marks one that
is not, has it accepted, has it refused, or removes its mark.  Each move says
all that it changes and what had to be the case before, so nothing after this
module opens the step function again; a step of a crew is then a move of one of
its threads (`step_cases`).

Two things are said of the moves that every later reading of a run relies on.
Left alone, a thread makes the offer that a single thread makes
(`run_offer`): the moves are the offer, cut in pieces.  And every move brings
its thread nearer to its end (`Move.work_lt`), so every crew can come to the
point where all calls have returned (`exists_run_done`).
-/
import Scrape.Collector.Threads
import Scrape.Proofs.Collector.Admission
import Scrape.Proofs.Threads

namespace Scrape.Collector

variable {σ : Type}

/-- A thread that has calls to make: each of its collectors is given a sample,
and all calls of the thread share its sink. -/
structure Desk (σ : Type) where
  calls : List (Collector × Sample)
  sink : Sink σ
  state : σ

/-- The thread of a desk, before its first call. -/
def Desk.thread (d : Desk σ) : Thread σ where
  candidates := d.calls.map fun call => (call.1.candidate call.2).value
  sink := d.sink
  state := d.state

/-! ## The moves of a thread -/

namespace Thread

variable {t : Thread σ} {l : Ledger} {c : Candidate}

theorem step?_of_mem {rest : List Candidate} (hp : t.point = .idle)
    (hc : t.candidates = c :: rest) (h : c.fingerprint ∈ l.marks) :
    t.step? l =
      some ⟨({ t with candidates := rest }.finish c .duplicate, l.countCheck.countDuplicate),
        [.duplicate c.emission.name c.fingerprint]⟩ := by
  simp only [step?, hp, hc, Ledger.check_of_mem _ h]
  rfl

theorem step?_of_not_mem {rest : List Candidate} (hp : t.point = .idle)
    (hc : t.candidates = c :: rest) (h : c.fingerprint ∉ l.marks) :
    t.step? l =
      some ⟨({ t with candidates := rest, point := .marked c },
        l.countCheck.withMarks (c.fingerprint :: l.marks)), []⟩ := by
  simp only [step?, hp, hc, Ledger.check_of_not_mem _ h]
  rfl

theorem step?_of_ok {state : σ} (hp : t.point = .marked c)
    (he : t.sink.emit t.state c.emission = (.ok (), state)) :
    t.step? l = some ⟨({ t with state }.finish c .emitted, l), []⟩ := by
  simp only [step?, hp, he]
  rfl

theorem step?_of_error {fault : Fault} {state : σ} (hp : t.point = .marked c)
    (he : t.sink.emit t.state c.emission = (.error fault, state)) :
    t.step? l =
      some ⟨({ t with state, point := .refused c }, l), [.refused c.emission.name fault]⟩ := by
  simp only [step?, hp, he]
  rfl

theorem step?_of_refused (hp : t.point = .refused c) :
    t.step? l = some ⟨(t.finish c .failed, l.unmark c.fingerprint), []⟩ := by
  simp only [step?, hp]
  rfl

theorem step?_of_nil (hp : t.point = .idle) (hc : t.candidates = []) : t.step? l = none := by
  simp only [step?, hp, hc]

/-- What a thread and the ledger may become in one step. -/
inductive Move (t : Thread σ) (l : Ledger) : Thread σ → Ledger → Prop where
  | drop {c : Candidate} {rest : List Candidate} :
      t.point = .idle → t.candidates = c :: rest → c.fingerprint ∈ l.marks →
      Move t l ({ t with candidates := rest }.finish c .duplicate)
        l.countCheck.countDuplicate
  | mark {c : Candidate} {rest : List Candidate} :
      t.point = .idle → t.candidates = c :: rest → c.fingerprint ∉ l.marks →
      Move t l { t with candidates := rest, point := .marked c }
        (l.countCheck.withMarks (c.fingerprint :: l.marks))
  | accept {c : Candidate} {state : σ} :
      t.point = .marked c → t.sink.emit t.state c.emission = (.ok (), state) →
      Move t l ({ t with state }.finish c .emitted) l
  | refuse {c : Candidate} {fault : Fault} {state : σ} :
      t.point = .marked c → t.sink.emit t.state c.emission = (.error fault, state) →
      Move t l { t with state, point := .refused c } l
  | remove {c : Candidate} :
      t.point = .refused c → Move t l (t.finish c .failed) (l.unmark c.fingerprint)

/-- A thread with nothing left to do has no step; any other one has a step, which
is a move. -/
theorem step?_cases (t : Thread σ) (l : Ledger) :
    (t.step? l = none ∧ t.candidates = [] ∧ t.point = .idle) ∨
    ∃ x, t.step? l = some x ∧ Move t l x.value.1 x.value.2 := by
  cases hp : t.point with
  | idle =>
      cases hc : t.candidates with
      | nil => exact .inl ⟨step?_of_nil hp hc, rfl, rfl⟩
      | cons c rest =>
          by_cases hm : c.fingerprint ∈ l.marks
          · exact .inr ⟨_, step?_of_mem hp hc hm, .drop hp hc hm⟩
          · exact .inr ⟨_, step?_of_not_mem hp hc hm, .mark hp hc hm⟩
  | marked c =>
      cases he : t.sink.emit t.state c.emission with
      | mk answer state =>
          cases answer with
          | ok u => exact .inr ⟨_, step?_of_ok hp he, .accept hp he⟩
          | error fault => exact .inr ⟨_, step?_of_error hp he, .refuse hp he⟩
  | refused c => exact .inr ⟨_, step?_of_refused hp, .remove hp⟩

/-- The moves a thread has left at most: three for each offer to come, and those
of the offer under way. -/
def work (t : Thread σ) : Nat :=
  3 * t.candidates.length +
    match t.point with
    | .idle => 0
    | .marked _ => 2
    | .refused _ => 1

theorem Move.work_lt {t' : Thread σ} {l' : Ledger} (h : Move t l t' l') :
    t'.work < t.work := by
  cases h with
  | drop hp hc hm => simp [work, finish, hp, hc]
  | mark hp hc hm =>
      simp only [work, hp, hc, List.length_cons]
      omega
  | accept hp he => simp [work, finish, hp]
  | refuse hp he => simp [work, hp]
  | remove hp => simp [work, finish, hp]

end Thread

/-! ## The moves of a crew -/

namespace Crew

open Thread (Move)

/-- The threads of some desks, before their first calls. -/
def start (l : Ledger) (desks : List (Desk σ)) : Crew σ where
  ledger := l
  threads := desks.map Desk.thread

/-- A step changes nothing, or one thread moves and the others stay. -/
theorem step_cases (w : Crew σ) (i : Nat) :
    (w.step i = w ∧ ∀ t, w.threads[i]? = some t → t.candidates = [] ∧ t.point = .idle) ∨
    ∃ pre t post t', w.threads = pre ++ t :: post ∧ w.threads[i]? = some t ∧
      (w.step i).threads = pre ++ t' :: post ∧ Move t w.ledger t' (w.step i).ledger := by
  obtain h | ⟨pre, t, post, t', hw, -, h⟩ := Team.move_cases Thread.step?_cases w i
  · exact .inl h
  · exact .inr ⟨pre, t, post, t', hw, h⟩

/-- What is gathered from the threads, with one of them brought out. -/
theorem flatMap_threads {w : Crew σ} {pre post : List (Thread σ)} {t : Thread σ}
    (h : w.threads = pre ++ t :: post) (f : Thread σ → List UInt64) :
    w.threads.flatMap f = pre.flatMap f ++ (f t ++ post.flatMap f) := by
  rw [h, List.flatMap_append, List.flatMap_cons]

/-! ## Calls come to their end -/

/-- The crew when a single thread has made the offer of `c` in the place of thread `i`, which is
`t` and has the candidates `rest` to offer after it. -/
def offered (w : Crew σ) (i : Nat) (t : Thread σ) (c : Candidate) (rest : List Candidate) :
    Crew σ :=
  let x := c.offer t.sink ⟨w.ledger, t.state⟩
  { ledger := x.value.2.ledger
    threads := w.threads.set i
      ({ t with candidates := rest, state := x.value.2.sink }.finish c x.value.1)
    reported := x.events.reverse ++ w.reported }

/-- A thread that no other one interrupts makes its next offer as a single
thread does: same outcome, same ledger, same sink, same report. -/
theorem run_offer {w : Crew σ} {i : Nat} {t : Thread σ} {c : Candidate} {rest : List Candidate}
    (ht : w.threads[i]? = some t) (hp : t.point = .idle) (hc : t.candidates = c :: rest) :
    ∃ n, w.run (List.replicate n i) = w.offered i t c rest := by
  rw [offered]
  obtain ⟨h, e⟩ | ⟨state, h, he, e⟩ | ⟨fault, state, h, he, e⟩ :=
    c.offer_cases t.sink ⟨w.ledger, t.state⟩
  · -- the check is the whole offer
    rw [e]
    exact ⟨1, Team.step_of_some ht (Thread.step?_of_mem hp hc h)⟩
  · have hmark := Thread.step?_of_not_mem hp hc h
    have first : w.step i = _ := Team.step_of_some ht hmark
    have second : (w.step i).step i = _ :=
      Team.step_of_some (Team.getElem?_step ht hmark) (Thread.step?_of_ok rfl he)
    refine ⟨2, second.trans ?_⟩
    rw [e, first]
    simp only [List.set_set]
    rfl
  · have hmark := Thread.step?_of_not_mem hp hc h
    have first : w.step i = _ := Team.step_of_some ht hmark
    have hrefuse := Thread.step?_of_error (l := (w.step i).ledger)
      (t := { t with candidates := rest, point := .marked c }) rfl he
    have second : (w.step i).step i = _ :=
      Team.step_of_some (Team.getElem?_step ht hmark) hrefuse
    have third : ((w.step i).step i).step i = _ :=
      Team.step_of_some (Team.getElem?_step (Team.getElem?_step ht hmark) hrefuse)
        (Thread.step?_of_refused rfl)
    refine ⟨3, third.trans ?_⟩
    rw [e, second, first]
    simp only [List.set_set, Ledger.unmark_withMarks_cons]
    rfl

/-- Every crew can go on to a point where all calls have returned. -/
theorem exists_run_done (w : Crew σ) : ∃ picks, (w.run picks).done :=
  Team.exists_run_ended Thread.step?_cases Thread.work Thread.Move.work_lt w

end Crew

end Scrape.Collector
