/-
What interleaving leaves of the calls.

Threads at a shared ledger may come between the steps of each other's calls in
any way.  Nothing of it shows in the end: what a run does to the ledger, and
what it tells the threads, is what whole calls do that are made one after
another in the order of their critical sections.  `interleaved_of_run` has all
of this for any programs and any picks, at any point of the run.  Only the
counters need some care at such a point, since a call under way has counted one
thing and not yet the other.

When there are checks only, nothing takes a mark away, and one can say more:
who comes first with a fingerprint depends on the picks, but that exactly one
call does, and how many come too late, does not.
-/
import Mathlib.Data.Finset.Card
import Scrape.Proofs.Ledger.Serial

namespace Scrape.Ledger

open Call (history settle)

namespace Call

/-- The fingerprint that a check is about. -/
def checked? : Call → Option UInt64
  | .check _ s => some s
  | _ => none

end Call

/-- The fingerprint of a check and what the check said. -/
def Entry.verdict? (e : Entry) : Option (UInt64 × Bool) :=
  e.call.checked?.bind fun s => e.answer.map (s, ·)

/-- A check takes no mark away. -/
theorem Entry.spares {e : Entry} (h : e.call.isCheck) : e.reverts = false ∧ e.cleared = 0 := by
  rw [reverts, cleared]
  cases hc : e.call with
  | check name s => exact ⟨rfl, rfl⟩
  | unmark s =>
      rw [hc] at h
      exact absurd h Bool.false_ne_true
  | clear =>
      rw [hc] at h
      exact absurd h Bool.false_ne_true

theorem Call.isSome_answer_make (c : Call) (l : Ledger) :
    (c.make l).answer.isSome = c.checked?.isSome := by
  cases c with
  | check name s => rfl
  | unmark s => rfl
  | clear => rfl

/-! ## Checks alone -/

namespace Call

theorem mem_marks_check (name : String) (s t : UInt64) (l : Ledger) :
    s ∈ ((check name t).perform l).2.marks ↔ s = t ∨ s ∈ l.marks := by
  by_cases ht : t ∈ l.marks
  · rw [perform_check_of_mem name ht]
    show s ∈ l.marks ↔ _
    refine ⟨.inr, ?_⟩
    rintro (rfl | hs)
    · exact ht
    · exact hs
  · rw [perform_check_of_not_mem name ht]
    exact List.mem_cons

theorem verdict?_check (name : String) (t : UInt64) (l : Ledger) :
    ((check name t).make l).verdict? = some (t, decide (t ∈ l.marks)) := by
  by_cases ht : t ∈ l.marks
  · rw [make, perform_check_of_mem name ht, decide_eq_true ht]
    rfl
  · rw [make, perform_check_of_not_mem name ht, decide_eq_false ht]
    rfl

section Checks

variable {calls : List Call} (h : ∀ c ∈ calls, c.isCheck)
include h

/-- Checks only add marks. -/
theorem mem_marks_settle_of_checks (l : Ledger) (s : UInt64) :
    s ∈ (settle calls l).marks ↔ s ∈ l.marks ∨ s ∈ calls.filterMap checked? := by
  induction calls generalizing l with
  | nil => simp [settle]
  | cons c calls ih =>
      obtain ⟨hc, hcalls⟩ := List.forall_mem_cons.mp h
      cases c with
      | check name t =>
          rw [settle_cons, ih hcalls, mem_marks_check]
          simp only [checked?, List.filterMap_cons, List.mem_cons]
          rw [or_assoc, or_left_comm]
      | unmark t => exact absurd hc Bool.false_ne_true
      | clear => exact absurd hc Bool.false_ne_true

/-- The first check of a fingerprint that has no mark finds none, and all others
find one. -/
theorem count_verdict_of_checks (l : Ledger) (s : UInt64) :
    ((history calls l).filterMap Entry.verdict?).count (s, false) =
      if s ∉ l.marks ∧ s ∈ calls.filterMap checked? then 1 else 0 := by
  induction calls generalizing l with
  | nil => simp [history]
  | cons c calls ih =>
      obtain ⟨hc, hcalls⟩ := List.forall_mem_cons.mp h
      cases c with
      | check name t =>
          rw [history, List.filterMap_cons_some (verdict?_check name t l), List.count_cons,
            ih hcalls]
          show (if s ∉ ((check name t).perform l).2.marks ∧ _ then 1 else 0) + _ = _
          simp only [mem_marks_check, checked?, List.filterMap_cons, List.mem_cons]
          by_cases hst : s = t
          · subst hst
            by_cases hs : s ∈ l.marks
            · simp [hs]
            · simp [hs]
          · simp [hst, Ne.symm hst]
      | unmark t => exact absurd hc Bool.false_ne_true
      | clear => exact absurd hc Bool.false_ne_true

/-- Checks alone miss once for each of their fingerprints that has no mark. -/
theorem countP_miss_of_checks {l : Ledger} (hl : l.WellFormed) :
    (history calls l).countP Entry.miss =
      ((calls.filterMap checked?).toFinset \ l.marks.toFinset).card := by
  have hmarks : (settle calls l).marks.toFinset =
      (calls.filterMap checked?).toFinset ∪ l.marks.toFinset := by
    ext s
    rw [Finset.mem_union, List.mem_toFinset, List.mem_toFinset, List.mem_toFinset,
      mem_marks_settle_of_checks h, or_comm]
  have hspares : ∀ e ∈ history calls l, e.reverts = false ∧ e.cleared = 0 := by
    intro e he
    refine Entry.spares (h e.call ?_)
    rw [← map_call_history calls l]
    exact List.mem_map_of_mem he
  have hreverts : (history calls l).countP Entry.reverts = 0 := by
    rw [List.countP_eq_zero]
    intro e he
    rw [(hspares e he).1]
    exact Bool.false_ne_true
  have hcleared : ((history calls l).map Entry.cleared).sum = 0 := by
    rw [List.sum_eq_zero_iff_forall_eq_nat, List.forall_mem_map]
    intro e he
    exact (hspares e he).2
  have hsize := size_settle calls l
  rw [hreverts, hcleared, size, size, ← List.toFinset_card_of_nodup hl.nodup,
    ← List.toFinset_card_of_nodup (settle_wellFormed hl calls).nodup, hmarks,
    ← Finset.card_sdiff_add_card] at hsize
  omega

end Checks

end Call

/-! ## The calls of a log, thread by thread -/

namespace Shared

theorem madeBy_cons (j : Nat) (x : Nat × Entry) (log : List (Nat × Entry)) :
    madeBy j (x :: log) = (if x.1 = j then [x.2] else []) ++ madeBy j log := by
  by_cases h : x.1 = j
  · simp [madeBy, h]
  · simp [madeBy, h]

theorem flatMap_range_single {i n : Nat} (h : i < n) (e : Entry) :
    ((List.range n).flatMap fun j => if i = j then [e] else []) = [e] := by
  induction n with
  | zero => exact absurd h (Nat.not_lt_zero i)
  | succ n ih =>
      rw [List.range_succ, List.flatMap_append, List.flatMap_singleton]
      by_cases hi : i = n
      · have hfront : ((List.range n).flatMap fun j => if i = j then [e] else []) = [] := by
          rw [List.flatMap_eq_nil_iff]
          intro j hj
          exact if_neg fun hij => absurd (List.mem_range.mp hj) (by omega)
        rw [hfront, if_pos hi, List.nil_append]
      · rw [ih (by omega), if_neg hi, List.append_nil]

/-- A log is made of the calls of the threads. -/
theorem flatMap_madeBy_perm {n : Nat} {log : List (Nat × Entry)} (h : ∀ x ∈ log, x.1 < n) :
    ((List.range n).flatMap (madeBy · log)).Perm (log.map (·.2)) := by
  induction log with
  | nil => simp [madeBy]
  | cons x log ih =>
      obtain ⟨hx, hlog⟩ := List.forall_mem_cons.mp h
      simp only [madeBy_cons]
      refine (List.flatMap_append_perm _ _ _).symm.trans ?_
      rw [flatMap_range_single hx]
      exact (ih hlog).cons x.2

/-- What each check of each thread has said. -/
def verdicts (programs : List (List Call)) (w : Shared) : List (UInt64 × Bool) :=
  (programs.zip w.threads).flatMap fun x =>
    (x.1.filterMap Call.checked?).zip x.2.answers.reverse

/-- A program's checks and their answers, as far as there are answers. -/
theorem zip_answers {entries : List Entry}
    (h : ∀ e ∈ entries, e.answer.isSome = e.call.checked?.isSome) (rest : List UInt64) :
    ((entries.map (·.call)).filterMap Call.checked? ++ rest).zip
        (entries.filterMap (·.answer)) =
      entries.filterMap Entry.verdict? := by
  induction entries with
  | nil => simp
  | cons e entries ih =>
      obtain ⟨he, hentries⟩ := List.forall_mem_cons.mp h
      cases hs : e.call.checked? with
      | none =>
          rw [hs, Option.isSome_none, Option.isSome_eq_false_iff, Option.isNone_iff_eq_none] at he
          have hv : e.verdict? = none := by rw [Entry.verdict?, hs, Option.bind_none]
          rw [List.map_cons, List.filterMap_cons_none hs, List.filterMap_cons_none he,
            List.filterMap_cons_none hv]
          exact ih hentries
      | some s =>
          rw [hs, Option.isSome_some, Option.isSome_iff_exists] at he
          obtain ⟨b, hb⟩ := he
          have hv : e.verdict? = some (s, b) := by
            rw [Entry.verdict?, hs, Option.bind_some, hb, Option.map_some]
          rw [List.map_cons, List.filterMap_cons_some hs, List.filterMap_cons_some hb,
            List.filterMap_cons_some hv]
          exact congrArg ((s, b) :: ·) (ih hentries)

/-! ## From the start -/

section Start

variable (l : Ledger) (programs : List (List Call))

theorem getElem?_threads_start (j : Nat) :
    (start l programs).threads[j]? = programs[j]?.map fun calls => { calls } :=
  List.getElem?_map

theorem countP_threads_start {p : Thread → Bool} (h : ∀ calls, p { calls } = false) :
    (start l programs).threads.countP p = 0 := by
  rw [List.countP_eq_zero, start, List.forall_mem_map]
  intro calls hcalls
  rw [h]
  exact Bool.false_ne_true

theorem follows_start : Follows l (start l programs) := by
  have hcounting : (start l programs).counting = 0 := countP_threads_start l programs fun _ => rfl
  have hnoting : (start l programs).noting = 0 := countP_threads_start l programs fun _ => rfl
  refine ⟨rfl, rfl, ?_, ?_⟩
  · rw [hcounting]
    exact (UInt64.add_zero _).symm
  · rw [hnoting]
    exact (UInt64.add_zero _).symm

theorem told_start : (start l programs).Told := by
  rw [Told, start, List.forall_mem_map]
  intro calls hcalls
  exact Nat.zero_le _

theorem found_start : (start l programs).found = 0 := by
  have h : (start l programs).threads.flatMap (·.answers) = [] := by
    rw [List.flatMap_eq_nil_iff, start, List.forall_mem_map]
    exact fun calls hcalls => rfl
  rw [found, h, List.count_nil]

theorem pending_start : (start l programs).pending = programs.flatten := by
  rw [pending, start, List.flatMap_map, List.flatten_eq_flatMap]
  rfl

end Start

/-! ## Any run -/

section Run

variable (l : Ledger) (programs : List (List Call)) (picks : List Nat)

/-- The calls that were made in a run, in the order of their critical sections. -/
def log : List (Nat × Entry) :=
  serial ((start l programs).sections picks) l

theorem map_snd_log :
    (log l programs picks).map (·.2) = history ((log l programs picks).map (·.2.call)) l := by
  rw [log, map_call_serial, map_snd_serial]

theorem isSome_answer_of_mem_log {x : Nat × Entry} (h : x ∈ log l programs picks) :
    x.2.answer.isSome = x.2.call.checked?.isSome := by
  have hx : x.2 ∈ (log l programs picks).map (·.2) := List.mem_map_of_mem h
  rw [map_snd_log] at hx
  obtain ⟨pre, post, hsplit⟩ := List.append_of_mem hx
  rw [(Call.eq_of_history_eq hsplit).2]
  exact Call.isSome_answer_make _ _

theorem lt_of_mem_log {x : Nat × Entry} (h : x ∈ log l programs picks) :
    x.1 < programs.length := by
  have hx : x.1 ∈ (log l programs picks).map (·.1) := List.mem_map_of_mem h
  rw [log, map_fst_serial] at hx
  obtain ⟨y, hy, hyx⟩ := List.mem_map.mp hx
  rw [← hyx, ← List.length_map (fun calls => ({ calls } : Thread))]
  exact lt_of_mem_sections hy

theorem follows_log :
    Follows (settle ((log l programs picks).map (·.2.call)) l)
      ((start l programs).run picks) := by
  rw [log, map_call_serial]
  exact (follows_start l programs).run picks

theorem thread_log {j : Nat} {calls : List Call} (h : programs[j]? = some calls) :
    ∃ t, ((start l programs).run picks).threads[j]? = some t ∧
      calls = (madeBy j (log l programs picks)).map (·.call) ++ t.pending ∧
      t.answers.reverse = (madeBy j (log l programs picks)).filterMap (·.answer) := by
  have ht : (start l programs).threads[j]? = some { calls } := by
    rw [getElem?_threads_start, h, Option.map_some]
  exact thread_run (follows_start l programs) picks ht

theorem found_log :
    ((start l programs).run picks).found = (log l programs picks).countP (·.2.hit) := by
  rw [log, found_run (follows_start l programs), found_start, Nat.zero_add]

theorem pending_log :
    programs.flatten.Perm ((log l programs picks).map (·.2.call) ++
      ((start l programs).run picks).pending) := by
  rw [log, map_call_serial, ← pending_start l]
  exact pending_run (start l programs) picks

theorem verdicts_log :
    (verdicts programs ((start l programs).run picks)).Perm
      (((log l programs picks).map (·.2)).filterMap Entry.verdict?) := by
  have hthreads : (programs.zip ((start l programs).run picks).threads).map
        (fun x => (x.1.filterMap Call.checked?).zip x.2.answers.reverse) =
      (List.range programs.length).map fun j =>
        (madeBy j (log l programs picks)).filterMap Entry.verdict? := by
    refine List.ext_getElem ?_ ?_
    · rw [List.length_map, List.length_map, List.length_zip, List.length_range,
        run, Team.length_threads_run, start, List.length_map, Nat.min_self]
    · intro j hj hj'
      rw [List.length_map, List.length_range] at hj'
      obtain ⟨t, ht, hcalls, hanswers⟩ :=
        thread_log l programs picks (List.getElem?_eq_getElem hj')
      obtain ⟨hlt, ht⟩ := List.getElem?_eq_some_iff.mp ht
      rw [List.getElem_map, List.getElem_map, List.getElem_zip, List.getElem_range, ht]
      simp only
      rw [hcalls, hanswers, List.filterMap_append]
      refine zip_answers ?_ _
      intro e he
      obtain ⟨x, hx, rfl⟩ := List.mem_map.mp he
      exact isSome_answer_of_mem_log l programs picks (List.mem_filter.mp hx).1
  have hperm := flatMap_madeBy_perm fun x => lt_of_mem_log l programs picks
  rw [verdicts, List.flatMap_def, hthreads, ← List.flatMap_def, ← List.filterMap_flatMap]
  exact hperm.filterMap _

/-- When all calls have returned the log has the calls of every program. -/
theorem madeBy_log_of_done (hdone : ((start l programs).run picks).done) {j : Nat}
    {calls : List Call} (h : programs[j]? = some calls) :
    (madeBy j (log l programs picks)).map (·.call) = calls := by
  obtain ⟨t, ht, hcalls, -⟩ := thread_log l programs picks h
  obtain ⟨hc, hp⟩ := hdone t (List.mem_of_getElem? ht)
  rw [hcalls, Thread.pending, hp, hc, List.append_nil]

theorem calls_log_of_done (hdone : ((start l programs).run picks).done) :
    programs.flatten.Perm ((log l programs picks).map (·.2.call)) := by
  have hpending : ((start l programs).run picks).pending = [] := by
    rw [pending, List.flatMap_eq_nil_iff]
    intro t ht
    obtain ⟨hc, hp⟩ := hdone t ht
    rw [Thread.pending, hp, hc]
  have hperm := pending_log l programs picks
  rw [hpending, List.append_nil] at hperm
  exact hperm

theorem countP_log (p : Entry → Bool) :
    (log l programs picks).countP (p ·.2) =
      (history ((log l programs picks).map (·.2.call)) l).countP p := by
  rw [← map_snd_log, List.countP_map]
  rfl

/-- The checks that were made are those that found a mark and those that set one. -/
theorem checks_log :
    (log l programs picks).countP (·.2.call.isCheck) =
      ((start l programs).run picks).found +
        (history ((log l programs picks).map (·.2.call)) l).countP Entry.miss := by
  rw [found_log, countP_log l programs picks Entry.hit, ← Call.countP_isCheck, List.countP_map]
  rfl

theorem checks_log_le :
    (log l programs picks).countP (·.2.call.isCheck) + ((start l programs).run picks).counting ≤
      programs.flatten.length := by
  rw [(pending_log l programs picks).length_eq, List.length_append, List.length_map]
  exact Nat.add_le_add List.countP_le_length (counting_le _)

theorem counters_log :
    ((start l programs).run picks).ledger.checks = l.checks +
      UInt64.ofNat ((log l programs picks).countP (·.2.call.isCheck) +
        ((start l programs).run picks).counting) := by
  rw [(follows_log l programs picks).checks, Call.checks_settle, UInt64.add_assoc,
    ← UInt64.ofNat_add, List.countP_map]
  rfl

theorem duplicates_log :
    ((start l programs).run picks).ledger.duplicates = l.duplicates +
      UInt64.ofNat (((start l programs).run picks).found -
        ((start l programs).run picks).noting) := by
  have hle := ((told_start l programs).run picks).noting_le_found
  have hduplicates := (follows_log l programs picks).duplicates
  rw [Call.duplicates_settle, ← countP_log l programs picks Entry.hit, ← found_log,
    ← Nat.sub_add_cancel hle, UInt64.ofNat_add, ← UInt64.add_assoc] at hduplicates
  exact ((UInt64.add_left_inj _).mp hduplicates).symm

theorem gauge_log (hl : l.WellFormed) :
    ((start l programs).run picks).ledger.unique =
      shown ((start l programs).run picks).ledger.size := by
  have h := follows_log l programs picks
  rw [h.unique, size, h.marks]
  exact (Call.settle_wellFormed hl _).gauge

theorem size_log_le :
    ((start l programs).run picks).ledger.size ≤ l.size + programs.flatten.length := by
  have hsize := Call.size_settle ((log l programs picks).map (·.2.call)) l
  have hchecks := checks_log l programs picks
  have hle := checks_log_le l programs picks
  rw [size, (follows_log l programs picks).marks, ← size]
  omega

section Checks

variable (hcalls : ∀ c ∈ programs.flatten, c.isCheck)
  (hdone : ((start l programs).run picks).done)
include hcalls hdone

theorem isCheck_log : ∀ c ∈ (log l programs picks).map (·.2.call), c.isCheck := by
  intro c hc
  exact hcalls c ((calls_log_of_done l programs picks hdone).mem_iff.mpr hc)

theorem won_log {s : UInt64} (hs : s ∈ programs.flatten.filterMap Call.checked?)
    (hnew : s ∉ l.marks) :
    (verdicts programs ((start l programs).run picks)).count (s, false) = 1 := by
  have hperm := (calls_log_of_done l programs picks hdone).filterMap Call.checked?
  rw [(verdicts_log l programs picks).count_eq, map_snd_log,
    Call.count_verdict_of_checks (isCheck_log l programs picks hcalls hdone)]
  exact if_pos ⟨hnew, hperm.mem_iff.mp hs⟩

theorem total_log (hl : l.WellFormed) :
    ((start l programs).run picks).found +
        ((programs.flatten.filterMap Call.checked?).toFinset \ l.marks.toFinset).card =
      programs.flatten.length := by
  have hperm := calls_log_of_done l programs picks hdone
  have hall := isCheck_log l programs picks hcalls hdone
  have hmisses := Call.countP_miss_of_checks hall hl
  have hlength : (log l programs picks).countP (·.2.call.isCheck) = programs.flatten.length := by
    rw [hperm.length_eq, ← List.countP_eq_length.mpr hall, List.countP_map]
    rfl
  rw [List.toFinset_eq_of_perm _ _ (hperm.filterMap _), ← hmisses, ← checks_log, hlength]

end Checks

end Run

end Shared

/-! ## The law of a run -/

/-- What holds at any point of a run.  The log has the calls whose critical section
has been, each with its thread. -/
structure Interleaved (l : Ledger) (programs : List (List Call)) (w : Shared)
    (log : List (Nat × Entry)) : Prop where
  /-- The calls of the log are made one after another, each where the one before it
  left off, and each thread made its own in the order of its program. -/
  whole : log.map (·.2) = history (log.map (·.2.call)) l
  threads : w.threads.length = programs.length
  program : ∀ j calls, programs[j]? = some calls → ∃ t, w.threads[j]? = some t ∧
    calls = (Shared.madeBy j log).map (·.call) ++ t.pending ∧
    t.answers.reverse = (Shared.madeBy j log).filterMap (·.answer)
  /-- Marks and gauge are what the log leaves. -/
  marks : w.ledger.marks = (settle (log.map (·.2.call)) l).marks
  unique : w.ledger.unique = (settle (log.map (·.2.call)) l).unique
  gauge : w.ledger.unique = shown w.ledger.size
  /-- Duplicates are no more than hits, and hits no more than checks. -/
  duplicates : w.ledger.duplicates = l.duplicates + UInt64.ofNat (w.found - w.noting)
  found : w.found = log.countP (·.2.hit)
  checks : w.ledger.checks =
    l.checks + UInt64.ofNat (log.countP (·.2.call.isCheck) + w.counting)
  found_le : w.found ≤ log.countP (·.2.call.isCheck)
  checks_le : log.countP (·.2.call.isCheck) + w.counting ≤ programs.flatten.length
  ordered : l.checks.toNat + programs.flatten.length < 2 ^ 64 →
    l.duplicates.toNat + programs.flatten.length < 2 ^ 64 →
      w.ledger.duplicates.toNat ≤ l.duplicates.toNat + w.found ∧
        l.checks.toNat + w.found ≤ w.ledger.checks.toNat
  sized : l.size + programs.flatten.length < 2 ^ 63 → w.ledger.unique.toInt = w.ledger.size
  /-- When all calls have returned the log has them all, and the ledger is what it
  leaves. -/
  returned : w.done → w.ledger = settle (log.map (·.2.call)) l ∧
    ∀ j calls, programs[j]? = some calls → (Shared.madeBy j log).map (·.call) = calls
  returns : ∃ picks, (w.run picks).done
  /-- With checks alone, one of those of a fingerprint without a mark finds none, and
  the others count as duplicates. -/
  won : (∀ c ∈ programs.flatten, c.isCheck) → w.done →
    ∀ s ∈ programs.flatten.filterMap Call.checked?, s ∉ l.marks →
      (Shared.verdicts programs w).count (s, false) = 1
  total : (∀ c ∈ programs.flatten, c.isCheck) → w.done →
    w.found + ((programs.flatten.filterMap Call.checked?).toFinset \ l.marks.toFinset).card =
        programs.flatten.length ∧
      w.ledger.duplicates = l.duplicates + UInt64.ofNat w.found

section

open Shared

/-- Whatever programs the threads have, and however their steps are mixed, a run does
what the calls do one after another in the order of their critical sections. -/
theorem interleaved_of_run {l : Ledger} (hl : l.WellFormed) (programs : List (List Call))
    (picks : List Nat) :
    Interleaved l programs ((start l programs).run picks) (log l programs picks) := by
  have hfollows := follows_log l programs picks
  have hfound := found_log l programs picks
  have hhit := countP_log l programs picks Entry.hit
  have hchecks := checks_log l programs picks
  have hle := checks_log_le l programs picks
  have hduplicates := duplicates_log l programs picks
  have hcounters := counters_log l programs picks
  constructor
  case whole => exact map_snd_log l programs picks
  case threads => rw [run, Team.length_threads_run, start, List.length_map]
  case program => exact fun j calls h => thread_log l programs picks h
  case marks => exact hfollows.marks
  case unique => exact hfollows.unique
  case gauge => exact gauge_log l programs picks hl
  case duplicates => exact hduplicates
  case found => exact hfound
  case checks => exact hcounters
  case found_le => exact hchecks ▸ Nat.le_add_right _ _
  case checks_le => exact hle
  case ordered =>
    intro hc hd
    have hcounted : ((start l programs).run picks).ledger.checks.toNat = _ :=
      congrArg UInt64.toNat hcounters
    rw [hduplicates, toNat_add_ofNat (by omega)]
    rw [toNat_add_ofNat (by omega)] at hcounted
    omega
  case sized =>
    intro hsize
    have := size_log_le l programs picks
    rw [gauge_log l programs picks hl]
    exact toInt_shown (by omega)
  case returned =>
    intro hdone
    exact ⟨hfollows.eq_of_done hdone, fun j calls h => madeBy_log_of_done l programs picks hdone h⟩
  case returns => exact exists_run_done _
  case won =>
    intro hcalls hdone s hs hnew
    exact won_log l programs picks hcalls hdone hs hnew
  case total =>
    intro hcalls hdone
    refine ⟨total_log l programs picks hcalls hdone hl, ?_⟩
    rw [hfollows.eq_of_done hdone, Call.duplicates_settle, hfound, hhit]

/-- Two threads check the same fingerprint, and both have counted the check before
either looks for the mark. -/
theorem interleaved_of_run_race :
    empty.WellFormed ∧
      Interleaved empty [[.check "up" 7], [.check "up" 7]]
        ((start empty [[.check "up" 7], [.check "up" 7]]).run [1, 0, 1, 0, 0])
        (log empty [[.check "up" 7], [.check "up" 7]] [1, 0, 1, 0, 0]) ∧
      ((start empty [[.check "up" 7], [.check "up" 7]]).run [1, 0, 1, 0, 0]).done ∧
      ((start empty [[.check "up" 7], [.check "up" 7]]).run [1, 0, 1, 0, 0]).ledger =
        ⟨[7], 2, 1, 1⟩ ∧
      verdicts [[.check "up" 7], [.check "up" 7]]
        ((start empty [[.check "up" 7], [.check "up" 7]]).run [1, 0, 1, 0, 0]) =
          [(7, true), (7, false)] :=
  ⟨empty_wellFormed, interleaved_of_run empty_wellFormed _ _, by decide, by decide, by decide⟩

end

end Scrape.Ledger
