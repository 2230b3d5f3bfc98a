/-
Threads that share a ledger, whatever they do.

All that a run of threads needs of its threads is their step.  A step of the team is the
step of one thread, put back in its place among the others, or nothing (`step_cases`); so
what is gathered from the threads changes in one place only.  Where the steps of threads
are moves of some kind, so are those of the team (`move_cases`).  And where every move
brings its thread nearer to its end, all threads can be brought to theirs
(`exists_run_ended`): the work that is left is the sum over the threads, and it shrinks
with each move.
-/
import Mathlib.Algebra.GroupWithZero.Nat
import Scrape.Threads

namespace Scrape

/-! ## Runs that come to an end -/

/-- Where some step lessens the work as long as there is any, a run can be brought to
its end. -/
theorem exists_foldl_of_lt {W α : Type} {step : W → α → W} {done : W → Prop} (work : W → Nat)
    (h : ∀ w, ¬ done w → ∃ a, work (step w a) < work w) (w : W) :
    ∃ steps : List α, done (steps.foldl step w) := by
  by_cases hdone : done w
  · exact ⟨[], hdone⟩
  · obtain ⟨a, hless⟩ := h w hdone
    obtain ⟨steps, hsteps⟩ := exists_foldl_of_lt work h (step w a)
    exact ⟨a :: steps, hsteps⟩
termination_by work w

theorem sum_map_lt {α : Type} {f : α → Nat} {pre post : List α} {a a' : α} (h : f a' < f a) :
    ((pre ++ a' :: post).map f).sum < ((pre ++ a :: post).map f).sum := by
  simp only [List.map_append, List.map_cons, List.sum_append, List.sum_cons]
  omega

namespace Team

variable {τ : Type} {step? : τ → Ledger → Option (Logged (τ × Ledger))} {w : Team τ} {i : Nat}
  {t : τ} {x : Logged (τ × Ledger)}

/-! ## One step -/

theorem step_of_some (ht : w.threads[i]? = some t) (hx : step? t w.ledger = some x) :
    w.step step? i =
      { ledger := x.value.2
        threads := w.threads.set i x.value.1
        reported := x.events.reverse ++ w.reported } := by
  rw [step, ht, Option.bind_some, hx]

theorem step_of_none (ht : w.threads[i]? = some t) (hx : step? t w.ledger = none) :
    w.step step? i = w := by
  rw [step, ht, Option.bind_some, hx]

theorem getElem?_step (ht : w.threads[i]? = some t) (hx : step? t w.ledger = some x) :
    (w.step step? i).threads[i]? = some x.value.1 := by
  obtain ⟨hi, -⟩ := List.getElem?_eq_some_iff.mp ht
  rw [step_of_some ht hx]
  exact List.getElem?_set_self hi

/-- A step changes nothing, or one thread takes its step and the others stay. -/
theorem step_cases (step? : τ → Ledger → Option (Logged (τ × Ledger))) (w : Team τ) (i : Nat) :
    (w.step step? i = w ∧ ∀ t, w.threads[i]? = some t → step? t w.ledger = none) ∨
    ∃ pre t post x, w.threads = pre ++ t :: post ∧ pre.length = i ∧
      w.threads[i]? = some t ∧ step? t w.ledger = some x ∧
      w.step step? i = ⟨x.value.2, pre ++ x.value.1 :: post, x.events.reverse ++ w.reported⟩ := by
  cases ht : w.threads[i]? with
  | none =>
      refine .inl ⟨?_, fun t h => by cases h⟩
      rw [step, ht, Option.bind_none]
  | some t =>
      cases hx : step? t w.ledger with
      | none =>
          refine .inl ⟨step_of_none ht hx, ?_⟩
          rintro _ ⟨⟩
          exact hx
      | some x =>
          obtain ⟨hi, hget⟩ := List.getElem?_eq_some_iff.mp ht
          refine .inr ⟨w.threads.take i, t, w.threads.drop (i + 1), x, ?_, ?_, rfl, hx, ?_⟩
          · rw [← hget, List.getElem_cons_drop, List.take_append_drop]
          · exact List.length_take_of_le (Nat.le_of_lt hi)
          · rw [step_of_some ht hx, List.set_eq_take_append_cons_drop, if_pos hi]

theorem length_threads_step (w : Team τ) (i : Nat) :
    (w.step step? i).threads.length = w.threads.length := by
  obtain ⟨hstep, -⟩ | ⟨pre, t, post, x, hw, -, -, -, hstep⟩ := w.step_cases step? i
  · rw [hstep]
  · rw [hstep, hw, List.length_append, List.length_append]
    rfl

/-! ## Threads of another kind -/

section Map

variable {τ' : Type} {f : τ → τ'} {step?' : τ' → Ledger → Option (Logged (τ' × Ledger))}

/-- The team with its threads seen as threads of another kind. -/
def map (f : τ → τ') (w : Team τ) : Team τ' where
  ledger := w.ledger
  threads := w.threads.map f
  reported := w.reported

/-- Where each thread's step is seen as a step, so is the team's. -/
theorem step_map (h : ∀ t l, step?' (f t) l = (step? t l).map (Functor.map (Prod.map f id)))
    (w : Team τ) (i : Nat) : (w.map f).step step?' i = (w.step step? i).map f := by
  have hget : (w.map f).threads[i]? = w.threads[i]?.map f := List.getElem?_map
  cases ht : w.threads[i]? with
  | none =>
      rw [ht] at hget
      rw [step, step, hget, ht]
      rfl
  | some t =>
      rw [ht] at hget
      have hnext := h t w.ledger
      cases hx : step? t w.ledger with
      | none =>
          rw [hx] at hnext
          rw [step_of_none ht hx]
          exact step_of_none hget hnext
      | some x =>
          rw [hx] at hnext
          rw [step_of_some ht hx]
          refine (step_of_some hget hnext).trans ?_
          simp only [map, List.map_set]
          rfl

theorem run_map (h : ∀ t l, step?' (f t) l = (step? t l).map (Functor.map (Prod.map f id)))
    (w : Team τ) (picks : List Nat) : (w.map f).run step?' picks = (w.run step? picks).map f := by
  induction picks generalizing w with
  | nil => rfl
  | cons i picks ih =>
      rw [run, List.foldl_cons, step_map h]
      exact ih (w.step step? i)

end Map

/-! ## Whole runs -/

/-- What every step keeps, a run keeps. -/
theorem run_of_step {motive : Team τ → Prop}
    (h : ∀ w i, motive w → motive (w.step step? i)) (hw : motive w) (picks : List Nat) :
    motive (w.run step? picks) := by
  induction picks generalizing w with
  | nil => exact hw
  | cons i picks ih => exact ih (h w i hw)

theorem length_threads_run (w : Team τ) (picks : List Nat) :
    (w.run step? picks).threads.length = w.threads.length := by
  refine run_of_step (motive := fun u => u.threads.length = w.threads.length) ?_ rfl picks
  exact fun u i h => (u.length_threads_step i).trans h

/-! ## Moves

A kind of thread is best known by its moves: what a thread and the ledger may become in one step,
and that there is always a step unless the thread is at its end. -/

section Moves

variable {Move : τ → Ledger → τ → Ledger → Prop} {ended : τ → Prop}
  (hmoves : ∀ t l, (step? t l = none ∧ ended t) ∨
    ∃ x, step? t l = some x ∧ Move t l x.value.1 x.value.2)
include hmoves

/-- A step changes nothing, or one thread moves and the others stay. -/
theorem move_cases (w : Team τ) (i : Nat) :
    (w.step step? i = w ∧ ∀ t, w.threads[i]? = some t → ended t) ∨
    ∃ pre t post t', w.threads = pre ++ t :: post ∧ pre.length = i ∧ w.threads[i]? = some t ∧
      (w.step step? i).threads = pre ++ t' :: post ∧
      Move t w.ledger t' (w.step step? i).ledger := by
  obtain ⟨hstep, hnone⟩ | ⟨pre, t, post, x, hw, hpre, ht, hx, hstep⟩ := w.step_cases step? i
  · refine .inl ⟨hstep, fun t ht => ?_⟩
    obtain ⟨-, hended⟩ | ⟨x, hx, -⟩ := hmoves t w.ledger
    · exact hended
    · cases (hnone t ht).symm.trans hx
  · obtain ⟨hnone, -⟩ | ⟨y, hy, hmove⟩ := hmoves t w.ledger
    · cases hx.symm.trans hnone
    · cases hx.symm.trans hy
      rw [hstep]
      exact .inr ⟨pre, t, post, x.value.1, hw, hpre, ht, rfl, hmove⟩

/-- Where every move lessens the work of its thread, all threads can be brought to their ends. -/
theorem exists_run_ended (work : τ → Nat)
    (hless : ∀ {t t' l l'}, Move t l t' l' → work t' < work t) (w : Team τ) :
    ∃ picks, ∀ t ∈ (w.run step? picks).threads, ended t := by
  refine @exists_foldl_of_lt _ _ (step step?) (fun w => ∀ t ∈ w.threads, ended t)
    (fun w => (w.threads.map work).sum) ?_ w
  intro w hbusy
  obtain ⟨t, hbusy⟩ := Classical.not_forall.mp hbusy
  obtain ⟨ht, hbusy⟩ := Classical.not_imp.mp hbusy
  obtain ⟨i, hi⟩ := List.mem_iff_getElem?.mp ht
  obtain ⟨-, hended⟩ | ⟨pre, u, post, u', hw, -, -, hw', hmove⟩ := move_cases hmoves w i
  · exact absurd (hended t hi) hbusy
  · refine ⟨i, ?_⟩
    simp only [hw, hw']
    exact sum_map_lt (hless hmove)

end Moves

end Team

end Scrape
