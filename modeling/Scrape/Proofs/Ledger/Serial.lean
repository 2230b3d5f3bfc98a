/-
Interleaved calls as calls in a row.

A run is a mix of the steps of many calls.  Its serial execution is made of
whole calls: those whose critical section has been, in the order of these
sections, each made at once (`sections`, `serial`).  The two are compared along
the run, step by step.  Marks and gauge are the same at every point, since only
critical sections touch them.  The counters lag behind each other, by what is
under way: a check is counted before its section, so the shared ledger is ahead
by the checks whose section is to come, and a duplicate is counted after it, so
it is behind by the duplicates that were found and not yet counted.  That is
`Follows`, and `Follows.run` carries it through any run.

What a thread is told, and which of its calls are still to come, follows in the
same way (`thread_run`), for each thread by itself.
-/
import Mathlib.Data.List.Perm.Basic
import Scrape.Proofs.Ledger.Moves

namespace Scrape.Ledger

open Call (history settle)
open Thread (Move)

/-! ## One move and one call -/

/-- A ledger and one that has the same marks and gauge stay alike when a thread
moves at the first and the call of the move, if any, is made at the second.  Of
the counters, the first is ahead by the checks under way, `n` of them those of
other threads, and behind by the duplicates under way. -/
theorem Thread.Move.follows {t t' : Thread} {l l' : Ledger} (h : Move t l t' l') {m : Ledger}
    (hmarks : l.marks = m.marks) (hunique : l.unique = m.unique) :
    l'.marks = (settle t.critical?.toList m).marks ∧
    l'.unique = (settle t.critical?.toList m).unique ∧
    (∀ n, l.checks = m.checks + UInt64.ofNat (n + t.counting.toNat) →
      l'.checks = (settle t.critical?.toList m).checks +
        UInt64.ofNat (n + t'.counting.toNat)) ∧
    (∀ n, m.duplicates = l.duplicates + UInt64.ofNat (n + t.noting.toNat) →
      (settle t.critical?.toList m).duplicates =
        l'.duplicates + UInt64.ofNat (n + t'.noting.toNat)) := by
  cases h with
  | count hp hc =>
      simp only [critical?, counting, noting, hp, hc]
      refine ⟨hmarks, hunique, ?_, fun n hn => hn⟩
      intro n hn
      exact (congrArg (· + 1) hn).trans (add_ofNat_succ _ n).symm
  | hit hp hs =>
      rw [hmarks] at hs
      simp only [critical?, counting, noting, hp, Option.toList_some, Call.settle_cons,
        Call.perform_check_of_mem _ hs]
      refine ⟨hmarks, hunique, ?_, ?_⟩
      · intro n hn
        exact hn.trans (add_one_add_ofNat _ n).symm
      · intro n hn
        exact (congrArg (· + 1) hn).trans (add_ofNat_succ _ n).symm
  | @miss name s hp hs =>
      rw [hmarks] at hs
      simp only [critical?, counting, noting, hp, Option.toList_some, Call.settle_cons,
        Call.perform_check_of_not_mem _ hs]
      refine ⟨congrArg (s :: ·) hmarks, ?_, ?_, fun n hn => hn⟩
      · rw [hmarks]
        rfl
      · intro n hn
        exact hn.trans (add_one_add_ofNat _ n).symm
  | note hp =>
      simp only [critical?, counting, noting, hp]
      refine ⟨hmarks, hunique, fun n hn => hn, ?_⟩
      intro n hn
      exact hn.trans (add_one_add_ofNat _ n).symm
  | @unmark s rest hp hc =>
      simp only [critical?, counting, noting, hp, hc, Option.toList_some, Call.settle_cons]
      refine ⟨congrArg (·.erase s) hmarks, ?_, fun n hn => hn, fun n hn => hn⟩
      show shown (l.marks.erase s).length = shown (m.marks.erase s).length
      rw [hmarks]
  | clear hp hc =>
      simp only [critical?, counting, noting, hp, hc, Option.toList_some, Call.settle_cons]
      exact ⟨rfl, rfl, fun n hn => hn, fun n hn => hn⟩

namespace Shared

/-! ## The serial execution of a run -/

/-- The calls of a run in the order of their critical sections, each with its
thread. -/
def sections (w : Shared) : List Nat → List (Nat × Call)
  | [] => []
  | i :: picks => ((w.critical? i).map (i, ·)).toList ++ (w.step i).sections picks

/-- Calls of threads made one after another. -/
def serial : List (Nat × Call) → Ledger → List (Nat × Entry)
  | [], _ => []
  | (i, c) :: sections, m => (i, c.make m) :: serial sections (c.make m).after

/-- The calls of one thread. -/
def madeBy (j : Nat) (log : List (Nat × Entry)) : List Entry :=
  (log.filter (·.1 = j)).map (·.2)

theorem map_snd_serial (sections : List (Nat × Call)) (m : Ledger) :
    (serial sections m).map (·.2) = history (sections.map (·.2)) m := by
  induction sections generalizing m with
  | nil => rfl
  | cons x sections ih => exact congrArg (x.2.make m :: ·) (ih (x.2.make m).after)

theorem map_call_serial (sections : List (Nat × Call)) (m : Ledger) :
    (serial sections m).map (·.2.call) = sections.map (·.2) := by
  induction sections generalizing m with
  | nil => rfl
  | cons x sections ih => exact congrArg (x.2 :: ·) (ih (x.2.make m).after)

theorem map_fst_serial (sections : List (Nat × Call)) (m : Ledger) :
    (serial sections m).map (·.1) = sections.map (·.1) := by
  induction sections generalizing m with
  | nil => rfl
  | cons x sections ih => exact congrArg (x.1 :: ·) (ih (x.2.make m).after)

theorem serial_append (sections more : List (Nat × Call)) (m : Ledger) :
    serial (sections ++ more) m =
      serial sections m ++ serial more (settle (sections.map (·.2)) m) := by
  induction sections generalizing m with
  | nil => rfl
  | cons x sections ih => exact congrArg ((x.1, x.2.make m) :: ·) (ih (x.2.make m).after)

theorem madeBy_append (j : Nat) (log more : List (Nat × Entry)) :
    madeBy j (log ++ more) = madeBy j log ++ madeBy j more := by
  simp [madeBy]

/-- At most one call is made in a step, and it is of the thread that is picked. -/
theorem madeBy_serial_step (j i : Nat) (c : Option Call) (m : Ledger) :
    madeBy j (serial (c.map (i, ·)).toList m) =
      if i = j then (c.map (Call.make · m)).toList else [] := by
  cases c with
  | none => simp [serial, madeBy]
  | some c => by_cases h : i = j <;> simp [serial, madeBy, h]

theorem map_snd_section (i : Nat) (c : Option Call) :
    ((c.map (i, ·)).toList).map (·.2) = c.toList := by
  cases c with
  | none => rfl
  | some c => rfl

/-! ## The shared ledger follows the serial one -/

/-- How many checks are counted whose critical section is to come. -/
def counting (w : Shared) : Nat := w.threads.countP Thread.counting

/-- How many duplicates are found and still to be counted. -/
def noting (w : Shared) : Nat := w.threads.countP Thread.noting

/-- How the shared ledger stands to the ledger of the serial execution. -/
structure Follows (m : Ledger) (w : Shared) : Prop where
  marks : w.ledger.marks = m.marks
  unique : w.ledger.unique = m.unique
  checks : w.ledger.checks = m.checks + UInt64.ofNat w.counting
  duplicates : m.duplicates = w.ledger.duplicates + UInt64.ofNat w.noting

theorem countP_threads {w : Shared} {pre post : List Thread} {t : Thread}
    (h : w.threads = pre ++ t :: post) (p : Thread → Bool) :
    w.threads.countP p = pre.countP p + post.countP p + (p t).toNat := by
  rw [h, List.countP_append, List.countP_cons, Nat.add_assoc]
  cases p t <;> rfl

theorem Follows.step {m : Ledger} {w : Shared} (h : Follows m w) (i : Nat) :
    Follows (settle (w.critical? i).toList m) (w.step i) := by
  rcases w.step_cases i with ⟨hstep, hcritical⟩ |
    ⟨pre, t, post, t', hw, -, hw', hcritical, hmove⟩
  · rw [hstep, hcritical]
    exact h
  · obtain ⟨hmarks, hunique, hchecks, hduplicates⟩ := hmove.follows h.marks h.unique
    rw [hcritical]
    refine ⟨hmarks, hunique, ?_, ?_⟩
    · rw [counting, countP_threads hw']
      exact hchecks _ (by rw [h.checks, counting, countP_threads hw])
    · rw [noting, countP_threads hw']
      exact hduplicates _ (by rw [h.duplicates, noting, countP_threads hw])

theorem Follows.run {m : Ledger} {w : Shared} (h : Follows m w) (picks : List Nat) :
    Follows (settle ((w.sections picks).map (·.2)) m) (w.run picks) := by
  induction picks generalizing w m with
  | nil => exact h
  | cons i picks ih =>
      rw [sections, List.map_append, map_snd_section, Call.settle_append]
      exact ih (h.step i)

/-- When all calls have returned nothing is under way, and the ledgers are one. -/
theorem Follows.eq_of_done {m : Ledger} {w : Shared} (h : Follows m w) (hdone : w.done) :
    w.ledger = m := by
  have hcounting : w.counting = 0 := by
    rw [counting, List.countP_eq_zero]
    intro t ht
    rw [Thread.counting, (hdone t ht).2]
    decide
  have hnoting : w.noting = 0 := by
    rw [noting, List.countP_eq_zero]
    intro t ht
    rw [Thread.noting, (hdone t ht).2]
    decide
  have hchecks := h.checks
  have hduplicates := h.duplicates
  rw [hcounting, show UInt64.ofNat 0 = 0 from rfl, UInt64.add_zero] at hchecks
  rw [hnoting, show UInt64.ofNat 0 = 0 from rfl, UInt64.add_zero] at hduplicates
  cases m with
  | mk marks checks duplicates unique =>
      cases hw : w.ledger with
      | mk marks' checks' duplicates' unique' =>
          have hmarks := h.marks
          have hunique := h.unique
          rw [hw] at hmarks hunique hchecks hduplicates
          rw [Ledger.mk.injEq]
          exact ⟨hmarks, hchecks, hduplicates.symm, hunique⟩

/-! ## What a thread is told -/

theorem thread_step {m : Ledger} {w : Shared} (h : Follows m w) (i : Nat) {j : Nat} {t : Thread}
    (ht : w.threads[j]? = some t) :
    ∃ t', (w.step i).threads[j]? = some t' ∧
      t.pending =
        (madeBy j (serial ((w.critical? i).map (i, ·)).toList m)).map (·.call) ++ t'.pending ∧
      t'.answers.reverse = t.answers.reverse ++
        (madeBy j (serial ((w.critical? i).map (i, ·)).toList m)).filterMap (·.answer) := by
  rw [madeBy_serial_step]
  rcases w.step_cases i with ⟨hstep, hcritical⟩ |
    ⟨pre, u, post, u', hw, rfl, hw', hcritical, hmove⟩
  · exact ⟨t, by rw [hstep, ht], by simp [hcritical], by simp [hcritical]⟩
  · by_cases hj : pre.length = j
    · subst hj
      obtain rfl : u = t := by
        rw [hw, List.getElem?_append_right (Nat.le_refl _), Nat.sub_self] at ht
        exact Option.some.inj ht
      obtain ⟨hpending, hanswers⟩ := hmove.progress h.marks
      refine ⟨u', ?_, ?_, ?_⟩
      · rw [hw', List.getElem?_append_right (Nat.le_refl _), Nat.sub_self]
        rfl
      · rw [if_pos rfl, hcritical, hpending]
        cases u.critical? with
        | none => rfl
        | some c => rfl
      · rw [if_pos rfl, hcritical, hanswers]
    · refine ⟨t, ?_, ?_, ?_⟩
      · rw [hw', ← ht, hw, List.getElem?_append, List.getElem?_append, List.getElem?_cons,
          List.getElem?_cons]
        by_cases hlt : j < pre.length
        · rw [if_pos hlt, if_pos hlt]
        · rw [if_neg hlt, if_neg hlt, if_neg (by omega), if_neg (by omega)]
      · rw [if_neg hj]
        rfl
      · rw [if_neg hj, List.filterMap_nil, List.append_nil]

/-- A thread has made its calls in their order, up to those that are pending, and it
was told what they answer in the serial execution. -/
theorem thread_run {m : Ledger} {w : Shared} (h : Follows m w) (picks : List Nat) {j : Nat}
    {t : Thread} (ht : w.threads[j]? = some t) :
    ∃ t', (w.run picks).threads[j]? = some t' ∧
      t.pending = (madeBy j (serial (w.sections picks) m)).map (·.call) ++ t'.pending ∧
      t'.answers.reverse =
        t.answers.reverse ++ (madeBy j (serial (w.sections picks) m)).filterMap (·.answer) := by
  induction picks generalizing w m t with
  | nil => exact ⟨t, ht, rfl, (List.append_nil _).symm⟩
  | cons i picks ih =>
      obtain ⟨u, hu, hpending, hanswers⟩ := thread_step h i ht
      obtain ⟨t', ht', hpending', hanswers'⟩ := ih (h.step i) hu
      refine ⟨t', ht', ?_, ?_⟩
      · rw [sections, serial_append, map_snd_section, madeBy_append, List.map_append,
          hpending, hpending', List.append_assoc]
      · rw [sections, serial_append, map_snd_section, madeBy_append, List.filterMap_append,
          hanswers', hanswers, List.append_assoc]

theorem lt_of_mem_sections {w : Shared} {picks : List Nat} {x : Nat × Call}
    (h : x ∈ w.sections picks) : x.1 < w.threads.length := by
  induction picks generalizing w with
  | nil => exact absurd h List.not_mem_nil
  | cons i picks ih =>
      rcases List.mem_append.mp h with h | h
      · obtain ⟨c, hc, rfl⟩ := Option.map_eq_some_iff.mp (Option.mem_toList.mp h)
        obtain ⟨t, ht, -⟩ := Option.bind_eq_some_iff.mp hc
        exact (List.getElem?_eq_some_iff.mp ht).1
      · exact (ih h).trans_eq (Team.length_threads_step w i)

/-! ## Calls and hits of all threads -/

/-- The calls whose critical section is to come. -/
def pending (w : Shared) : List Call :=
  w.threads.flatMap Thread.pending

theorem pending_step (w : Shared) (i : Nat) :
    w.pending.Perm ((w.critical? i).toList ++ (w.step i).pending) := by
  rcases w.step_cases i with ⟨hstep, hcritical⟩ |
    ⟨pre, t, post, t', hw, -, hw', hcritical, hmove⟩
  · rw [hstep, hcritical]
    exact .refl _
  · obtain ⟨hpending, -⟩ := hmove.progress rfl
    rw [pending, pending, hw, hw', hcritical, List.flatMap_append, List.flatMap_append,
      List.flatMap_cons, List.flatMap_cons, hpending, List.append_assoc]
    exact List.perm_append_comm_assoc _ _ _

/-- No call is made that was not to be made, and none is forgotten. -/
theorem pending_run (w : Shared) (picks : List Nat) :
    w.pending.Perm ((w.sections picks).map (·.2) ++ (w.run picks).pending) := by
  induction picks generalizing w with
  | nil => exact .refl _
  | cons i picks ih =>
      rw [sections, List.map_append, map_snd_section, List.append_assoc]
      exact (w.pending_step i).trans ((ih (w.step i)).append_left _)

theorem countP_le_sum {p : Thread → Bool} {f : Thread → Nat} {threads : List Thread}
    (h : ∀ t ∈ threads, (p t).toNat ≤ f t) : threads.countP p ≤ (threads.map f).sum := by
  induction threads with
  | nil => exact Nat.le_refl 0
  | cons t threads ih =>
      obtain ⟨ht, hthreads⟩ := List.forall_mem_cons.mp h
      rw [List.countP_cons, List.map_cons, List.sum_cons, Nat.add_comm]
      refine Nat.add_le_add ?_ (ih hthreads)
      cases hp : p t with
      | false => exact Nat.zero_le _
      | true => simpa [hp] using ht

theorem counting_le (w : Shared) : w.counting ≤ w.pending.length := by
  rw [counting, pending, List.length_flatMap]
  refine countP_le_sum fun t _ => ?_
  rw [Thread.counting, Thread.pending]
  cases t.point with
  | idle => exact Nat.zero_le _
  | counted name s => exact Nat.succ_le_of_lt (Nat.succ_pos _)
  | found name s => exact Nat.zero_le _

theorem count_answers (entries : List Entry) :
    (entries.filterMap (·.answer)).count true = entries.countP Entry.hit := by
  induction entries with
  | nil => rfl
  | cons e entries ih =>
      cases h : e.answer with
      | none => simp [h, ih, Entry.hit]
      | some b => cases b <;> simp [h, ih, Entry.hit]

/-- The hits that threads have been told of are those of the serial execution. -/
theorem found_run {m : Ledger} {w : Shared} (h : Follows m w) (picks : List Nat) :
    (w.run picks).found = w.found + (serial (w.sections picks) m).countP (·.2.hit) := by
  induction picks generalizing w m with
  | nil => rfl
  | cons i picks ih =>
      have hstep : (w.step i).found =
          w.found + (serial ((w.critical? i).map (i, ·)).toList m).countP (·.2.hit) := by
        rcases w.step_cases i with ⟨hstep, hcritical⟩ |
          ⟨pre, t, post, t', hw, -, hw', hcritical, hmove⟩
        · rw [hstep, hcritical]
          rfl
        · have hanswers := congrArg (List.count true) (hmove.progress h.marks).2
          rw [List.count_append, List.count_reverse, List.count_reverse, count_answers] at hanswers
          rw [found, found, hw, hw', hcritical]
          simp only [List.flatMap_append, List.flatMap_cons, List.count_append, hanswers]
          cases t.critical? with
          | none => simp [serial]
          | some c =>
              simp [serial]
              omega
      refine (ih (h.step i)).trans ?_
      rw [hstep, sections, serial_append, map_snd_section, List.countP_append, Nat.add_assoc]

/-- No thread notes a duplicate that it has not been told of. -/
def Told (w : Shared) : Prop :=
  ∀ t ∈ w.threads, t.noting.toNat ≤ t.answers.count true

theorem Told.step {w : Shared} (h : w.Told) (i : Nat) : (w.step i).Told := by
  rcases w.step_cases i with ⟨hstep, -⟩ | ⟨pre, t, post, t', hw, -, hw', -, hmove⟩
  · rw [hstep]
    exact h
  · rw [Told, hw, List.forall_mem_append, List.forall_mem_cons] at h
    rw [Told, hw', List.forall_mem_append, List.forall_mem_cons]
    exact ⟨h.1, hmove.noting_le, h.2.2⟩

theorem Told.run {w : Shared} (h : w.Told) (picks : List Nat) : (w.run picks).Told :=
  Team.run_of_step (motive := Told) (fun _ i h => Told.step h i) h picks

theorem Told.noting_le_found {w : Shared} (h : w.Told) : w.noting ≤ w.found := by
  rw [noting, found, List.count_flatMap]
  exact countP_le_sum h

end Shared

end Scrape.Ledger
