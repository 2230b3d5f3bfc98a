/-
Threads at a ledger, move by move.

Between two steps of a check another thread may come and do anything, but not
within a step.  So there is one step of each call that decides everything about
marks and answer: for a check it is the second, the one behind the count; for a
removal or a clearing it is the only one.  This is the call's critical section
(`critical?`), and what goes before and after it is counting.

A step of a thread is one of six moves (`Move`), each with all that it changes
and what had to be the case before.  Nothing after this module opens the step
function again.
-/
import Scrape.Ledger.Threads
import Scrape.Proofs.Ledger.History
import Scrape.Proofs.Threads

namespace Scrape

namespace Ledger

namespace Thread

/-- The call whose critical section is the next step of a thread. -/
def critical? (t : Thread) : Option Call :=
  match t.point with
  | .counted name s => some (.check name s)
  | .found .. => none
  | .idle =>
    match t.calls with
    | .unmark s :: _ => some (.unmark s)
    | .clear :: _ => some .clear
    | _ => none

/-- The calls of a thread whose critical section is still to come. -/
def pending (t : Thread) : List Call :=
  match t.point with
  | .counted name s => .check name s :: t.calls
  | _ => t.calls

/-- A check is counted and its mark is still to be looked up. -/
def counting (t : Thread) : Bool :=
  match t.point with
  | .counted .. => true
  | _ => false

/-- A mark was found and the duplicate is still to be counted. -/
def noting (t : Thread) : Bool :=
  match t.point with
  | .found .. => true
  | _ => false

/-- What a thread and the ledger may become in one step. -/
inductive Move (t : Thread) (l : Ledger) : Thread → Ledger → Prop where
  | count {name : String} {s : UInt64} {rest : List Call} :
      t.point = .idle → t.calls = .check name s :: rest →
      Move t l { t with calls := rest, point := .counted name s } l.countCheck
  | hit {name : String} {s : UInt64} :
      t.point = .counted name s → s ∈ l.marks →
      Move t l { t with point := .found name s, answers := true :: t.answers } l
  | miss {name : String} {s : UInt64} :
      t.point = .counted name s → s ∉ l.marks →
      Move t l { t with point := .idle, answers := false :: t.answers }
        (l.withMarks (s :: l.marks))
  | note {name : String} {s : UInt64} :
      t.point = .found name s → Move t l { t with point := .idle } l.countDuplicate
  | unmark {s : UInt64} {rest : List Call} :
      t.point = .idle → t.calls = .unmark s :: rest →
      Move t l { t with calls := rest, point := .idle } (l.unmark s)
  | clear {rest : List Call} :
      t.point = .idle → t.calls = .clear :: rest →
      Move t l { t with calls := rest, point := .idle } l.clear

/-- A thread with nothing left to do has no step; any other one has a step, which
is a move. -/
theorem step?_cases (t : Thread) (l : Ledger) :
    (t.step? l = none ∧ t.calls = [] ∧ t.point = .idle) ∨
    ∃ x, t.step? l = some x ∧ Move t l x.value.1 x.value.2 := by
  cases hp : t.point with
  | idle =>
      cases hc : t.calls with
      | nil => exact .inl ⟨by simp only [step?, hp, hc], rfl, rfl⟩
      | cons c rest =>
          refine .inr ?_
          cases c with
          | check name s =>
              refine ⟨_, (by simp only [step?, hp, hc]; rfl), ?_⟩
              exact .count hp hc
          | unmark s =>
              refine ⟨_, (by simp only [step?, hp, hc]; rfl), ?_⟩
              exact .unmark hp hc
          | clear =>
              refine ⟨_, (by simp only [step?, hp, hc]; rfl), ?_⟩
              exact .clear hp hc
  | counted name s =>
      refine .inr ?_
      by_cases hs : s ∈ l.marks
      · refine ⟨_, (by simp only [step?, hp, mark_of_mem hs]; rfl), ?_⟩
        exact .hit hp hs
      · refine ⟨_, (by simp only [step?, hp, mark_of_not_mem hs]; rfl), ?_⟩
        exact .miss hp hs
  | found name s =>
      refine .inr ⟨_, (by simp only [step?, hp]; rfl), ?_⟩
      exact .note hp

/-- A move is the critical section of one call or of none.  The call is no longer
pending after it, and its answer is the one that it gets of any ledger with the
same marks. -/
theorem Move.progress {t t' : Thread} {l l' : Ledger} (h : Move t l t' l') {m : Ledger}
    (hm : l.marks = m.marks) :
    t.pending = t.critical?.toList ++ t'.pending ∧
      t'.answers.reverse =
        t.answers.reverse ++ (t.critical?.map (Call.make · m)).toList.filterMap (·.answer) := by
  cases h with
  | count hp hc => simp [pending, critical?, hp, hc]
  | hit hp hs =>
      rw [hm] at hs
      simp [pending, critical?, hp, Call.make, Call.perform_check_of_mem _ hs]
  | miss hp hs =>
      rw [hm] at hs
      simp [pending, critical?, hp, Call.make, Call.perform_check_of_not_mem _ hs]
  | note hp => simp [pending, critical?, hp]
  | unmark hp hc => simp [pending, critical?, hp, hc, Call.make, Call.perform]
  | clear hp hc => simp [pending, critical?, hp, hc, Call.make, Call.perform]

/-- A thread notes no duplicate before it has found one. -/
theorem Move.noting_le {t t' : Thread} {l l' : Ledger} (h : Move t l t' l') :
    t'.noting.toNat ≤ t'.answers.count true := by
  cases h with
  | count hp hc => exact Nat.zero_le _
  | hit hp hs => simp [noting]
  | miss hp hs => exact Nat.zero_le _
  | note hp => exact Nat.zero_le _
  | unmark hp hc => exact Nat.zero_le _
  | clear hp hc => exact Nat.zero_le _

/-- The moves a thread has left at most: three for each call to come, and those of
the call under way. -/
def work (t : Thread) : Nat :=
  3 * t.calls.length +
    match t.point with
    | .idle => 0
    | .counted .. => 2
    | .found .. => 1

theorem Move.work_lt {t t' : Thread} {l l' : Ledger} (h : Move t l t' l') :
    t'.work < t.work := by
  cases h with
  | count hp hc =>
      simp only [work, hp, hc, List.length_cons]
      omega
  | hit hp hs => simp [work, hp]
  | miss hp hs => simp [work, hp]
  | note hp => simp [work, hp]
  | unmark hp hc => simp [work, hp, hc]
  | clear hp hc => simp [work, hp, hc]

end Thread

namespace Shared

open Thread (Move)

/-- Whether every thread has made all its calls. -/
def done (w : Shared) : Prop :=
  ∀ t ∈ w.threads, t.calls = [] ∧ t.point = .idle

instance (w : Shared) : Decidable w.done :=
  inferInstanceAs (Decidable (∀ t ∈ w.threads, t.calls = [] ∧ t.point = .idle))

/-- The call whose critical section is the next step of a thread. -/
def critical? (w : Shared) (i : Nat) : Option Call :=
  w.threads[i]?.bind Thread.critical?

/-- A step changes nothing, or one thread moves and the others stay. -/
theorem step_cases (w : Shared) (i : Nat) :
    (w.step i = w ∧ w.critical? i = none) ∨
    ∃ pre t post t', w.threads = pre ++ t :: post ∧ pre.length = i ∧
      (w.step i).threads = pre ++ t' :: post ∧ w.critical? i = t.critical? ∧
      Move t w.ledger t' (w.step i).ledger := by
  obtain ⟨hstep, hidle⟩ | ⟨pre, t, post, t', hw, hpre, ht, hw', hmove⟩ :=
    Team.move_cases Thread.step?_cases w i
  · refine .inl ⟨hstep, ?_⟩
    cases ht : w.threads[i]? with
    | none => rw [critical?, ht, Option.bind_none]
    | some t =>
        obtain ⟨hc, hp⟩ := hidle t ht
        rw [critical?, ht, Option.bind_some, Thread.critical?, hp, hc]
  · have hcritical : w.critical? i = t.critical? := by rw [critical?, ht, Option.bind_some]
    exact .inr ⟨pre, t, post, t', hw, hpre, hw', hcritical, hmove⟩

/-- Threads can always go on to a point where all calls have returned. -/
theorem exists_run_done (w : Shared) : ∃ picks, (w.run picks).done :=
  Team.exists_run_ended Thread.step?_cases Thread.work Thread.Move.work_lt w

end Shared

end Ledger

end Scrape
