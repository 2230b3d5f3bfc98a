/-
What a ledger keeps of its calls.

A ledger does not remember its calls.  It keeps a list of marks, two counters
and a gauge, and each call changes some of them in a way of its own: a check by
what it finds, a removal by whether there is something to remove, a clearing by
how much there is.  This module says what the four have to do with the calls
that were made, however many there were.

The calls are taken as a history: each with its answer and with the ledger as it
was before and after.  A fingerprint is marked when the last call that concerns
it is a check (`mem_marks_settle`); nothing but the order of the calls is in
that.  The counters are the numbers of checks and of hits.  What joins marks and
counters is one equation (`size_settle`): every check that is no hit adds a
mark, and a mark is there until a removal or a clearing takes it.

Both are shown from any ledger on, one call at a time.  `reckoning_of_requests`
puts them together for a ledger that was empty, with its operations as they are
called from outside.
-/
import Mathlib.Algebra.GroupWithZero.Nat
import Mathlib.Data.Finset.Card
import Scrape.Ledger.Threads
import Scrape.Proofs.Ledger.Marks

namespace Scrape.Ledger

namespace Call

/-! ## One call -/

/-- Makes a call.  A check answers whether it found a mark; the other calls have
no answer. -/
def perform (l : Ledger) : Call → Option Bool × Ledger
  | .check name s => Prod.map some id (l.check name s).value
  | .unmark s => (none, l.unmark s)
  | .clear => (none, l.clear)

def isCheck : Call → Bool
  | .check .. => true
  | _ => false

/-- Whether a call has a say in a fingerprint being marked. -/
def Concerns (s : UInt64) : Call → Prop
  | .check _ t => t = s
  | .unmark t => t = s
  | .clear => True

theorem perform_check_of_mem {l : Ledger} {s : UInt64} (name : String) (h : s ∈ l.marks) :
    (check name s).perform l = (some true, l.countCheck.countDuplicate) := by
  rw [perform, Ledger.check_of_mem name h]
  rfl

theorem perform_check_of_not_mem {l : Ledger} {s : UInt64} (name : String) (h : s ∉ l.marks) :
    (check name s).perform l = (some false, l.countCheck.withMarks (s :: l.marks)) := by
  rw [perform, Ledger.check_of_not_mem name h]
  rfl

/-- The four ways of a call, each with all that it changes. -/
theorem perform_cases (c : Call) (l : Ledger) :
    (∃ name s, c = .check name s ∧ s ∈ l.marks ∧
      c.perform l = (some true, l.countCheck.countDuplicate)) ∨
    (∃ name s, c = .check name s ∧ s ∉ l.marks ∧
      c.perform l = (some false, l.countCheck.withMarks (s :: l.marks))) ∨
    (∃ s, c = .unmark s ∧ c.perform l = (none, l.unmark s)) ∨
    (c = .clear ∧ c.perform l = (none, l.clear)) := by
  cases c with
  | check name s =>
      by_cases hs : s ∈ l.marks
      · exact .inl ⟨name, s, rfl, hs, perform_check_of_mem name hs⟩
      · exact .inr (.inl ⟨name, s, rfl, hs, perform_check_of_not_mem name hs⟩)
  | unmark s => exact .inr (.inr (.inl ⟨s, rfl, rfl⟩))
  | clear => exact .inr (.inr (.inr ⟨rfl, rfl⟩))

theorem perform_wellFormed {l : Ledger} (h : l.WellFormed) (c : Call) :
    (c.perform l).2.WellFormed := by
  cases c with
  | check name s => exact h.check name s
  | unmark s => exact h.unmark s
  | clear => exact l.clear_wellFormed

/-- After a call a fingerprint is marked because it was just checked, or because
it was marked before and the call has no say in it. -/
theorem mem_marks_perform {l : Ledger} (h : l.WellFormed) (c : Call) (s : UInt64) :
    s ∈ (c.perform l).2.marks ↔
      (∃ name, c = .check name s) ∨ s ∈ l.marks ∧ ¬ c.Concerns s := by
  cases c with
  | check name t =>
      have hcheck : (∃ name', check name t = check name' s) ↔ t = s := by
        constructor
        · rintro ⟨name', hc⟩
          injection hc
        · rintro rfl
          exact ⟨name, rfl⟩
      rw [hcheck, Concerns]
      by_cases ht : t ∈ l.marks
      · rw [perform_check_of_mem name ht]
        by_cases hts : t = s
        · exact iff_of_true (hts ▸ ht) (.inl hts)
        · simp [hts]
      · rw [perform_check_of_not_mem name ht]
        by_cases hts : t = s
        · simp [hts]
        · simp [hts, Ne.symm hts]
  | unmark t =>
      show s ∈ (l.unmark t).marks ↔ _
      rw [mem_marks_unmark h, Concerns, and_comm, ne_comm]
      simp
  | clear => simp [perform, Ledger.clear, Concerns]

theorem checks_perform (c : Call) (l : Ledger) :
    (c.perform l).2.checks = l.checks + UInt64.ofNat (if c.isCheck then 1 else 0) := by
  rcases perform_cases c l with ⟨name, s, rfl, -, e⟩ | ⟨name, s, rfl, -, e⟩ | ⟨s, rfl, e⟩ | ⟨rfl, e⟩
  · rw [e]
    rfl
  · rw [e]
    rfl
  · exact (UInt64.add_zero _).symm
  · exact (UInt64.add_zero _).symm

theorem duplicates_perform (c : Call) (l : Ledger) :
    (c.perform l).2.duplicates =
      l.duplicates + UInt64.ofNat (if (c.perform l).1 = some true then 1 else 0) := by
  rcases perform_cases c l with ⟨name, s, rfl, -, e⟩ | ⟨name, s, rfl, -, e⟩ | ⟨s, rfl, e⟩ | ⟨rfl, e⟩
  · rw [e]
    rfl
  · rw [e]
    exact (UInt64.add_zero _).symm
  · exact (UInt64.add_zero _).symm
  · exact (UInt64.add_zero _).symm

end Call

/-! ## Calls in a row -/

/-- A call that was made: what it answered, and the ledger before and after. -/
structure Entry where
  call : Call
  before : Ledger
  answer : Option Bool
  after : Ledger

namespace Entry

/-- Whether a removal found a mark to remove. -/
def reverts (e : Entry) : Bool :=
  match e.call with
  | .unmark s => decide (s ∈ e.before.marks)
  | _ => false

/-- How many marks a clearing took away. -/
def cleared (e : Entry) : Nat :=
  match e.call with
  | .clear => e.before.size
  | _ => 0

/-- The check found a mark. -/
def hit (e : Entry) : Bool := decide (e.answer = some true)

/-- The check set a mark. -/
def miss (e : Entry) : Bool := decide (e.answer = some false)

end Entry

namespace Call

def make (c : Call) (l : Ledger) : Entry :=
  ⟨c, l, (c.perform l).1, (c.perform l).2⟩

/-- Calls made one after another, each where the one before it left off. -/
def history : List Call → Ledger → List Entry
  | [], _ => []
  | c :: calls, l => c.make l :: history calls (c.make l).after

/-- The ledger after calls made one after another. -/
def settle (calls : List Call) (l : Ledger) : Ledger :=
  calls.foldl (fun l c => (c.perform l).2) l

theorem settle_cons (c : Call) (calls : List Call) (l : Ledger) :
    settle (c :: calls) l = settle calls (c.perform l).2 := rfl

theorem settle_append (calls more : List Call) (l : Ledger) :
    settle (calls ++ more) l = settle more (settle calls l) :=
  List.foldl_append

theorem history_append (calls more : List Call) (l : Ledger) :
    history (calls ++ more) l = history calls l ++ history more (settle calls l) := by
  induction calls generalizing l with
  | nil => rfl
  | cons c calls ih => exact congrArg (c.make l :: ·) (ih (c.make l).after)

theorem map_call_history (calls : List Call) (l : Ledger) :
    (history calls l).map (·.call) = calls := by
  induction calls generalizing l with
  | nil => rfl
  | cons c calls ih => exact congrArg (c :: ·) (ih (c.make l).after)

theorem length_history (calls : List Call) (l : Ledger) :
    (history calls l).length = calls.length := by
  rw [← List.length_map (·.call), map_call_history]

/-- What stands before a call in a history is the history of the calls before it,
and the call started from what those left behind. -/
theorem eq_of_history_eq {calls : List Call} {l : Ledger} {pre post : List Entry} {e : Entry}
    (h : history calls l = pre ++ e :: post) :
    history (pre.map (·.call)) l = pre ∧ e = e.call.make (settle (pre.map (·.call)) l) := by
  induction calls generalizing l pre with
  | nil => simp [history] at h
  | cons c calls ih =>
      cases pre with
      | nil =>
          obtain ⟨rfl, -⟩ := List.cons.inj h
          exact ⟨rfl, rfl⟩
      | cons b pre =>
          simp only [history, List.cons_append, List.cons.injEq] at h
          obtain ⟨rfl, h⟩ := h
          obtain ⟨hpre, he⟩ := ih h
          exact ⟨congrArg (c.make l :: ·) hpre, he⟩

theorem settle_wellFormed {l : Ledger} (h : l.WellFormed) (calls : List Call) :
    (settle calls l).WellFormed := by
  induction calls generalizing l with
  | nil => exact h
  | cons c calls ih => exact ih (perform_wellFormed h c)

/-! ## Marks: the last call that concerns a fingerprint -/

/-- The last of the calls that concern a fingerprint is a check. -/
def Standing (s : UInt64) (calls : List Call) : Prop :=
  ∃ pre name post, calls = pre ++ .check name s :: post ∧ ∀ c ∈ post, ¬ c.Concerns s

theorem standing_cons (s : UInt64) (c : Call) (calls : List Call) :
    Standing s (c :: calls) ↔
      Standing s calls ∨ (∃ name, c = .check name s) ∧ ∀ c ∈ calls, ¬ c.Concerns s := by
  constructor
  · rintro ⟨pre, name, post, h, hpost⟩
    cases pre with
    | nil =>
        obtain ⟨rfl, rfl⟩ := List.cons.inj h
        exact .inr ⟨⟨name, rfl⟩, hpost⟩
    | cons b pre => exact .inl ⟨pre, name, post, (List.cons.inj h).2, hpost⟩
  · rintro (⟨pre, name, post, rfl, hpost⟩ | ⟨⟨name, rfl⟩, hpost⟩)
    · exact ⟨c :: pre, name, post, rfl, hpost⟩
    · exact ⟨[], name, calls, rfl, hpost⟩

theorem mem_marks_settle {l : Ledger} (h : l.WellFormed) (calls : List Call) (s : UInt64) :
    s ∈ (settle calls l).marks ↔
      Standing s calls ∨ s ∈ l.marks ∧ ∀ c ∈ calls, ¬ c.Concerns s := by
  induction calls generalizing l with
  | nil => simp [settle, Standing]
  | cons c calls ih =>
      rw [settle_cons, ih (perform_wellFormed h c), mem_marks_perform h, standing_cons,
        List.forall_mem_cons, or_and_right, and_assoc, or_assoc]

/-! ## Counters: checks and hits -/

theorem checks_settle (calls : List Call) (l : Ledger) :
    (settle calls l).checks = l.checks + UInt64.ofNat (calls.countP isCheck) := by
  induction calls generalizing l with
  | nil => exact (UInt64.add_zero _).symm
  | cons c calls ih =>
      rw [settle_cons, ih, checks_perform, List.countP_cons, Nat.add_comm, UInt64.ofNat_add,
        UInt64.add_assoc]

theorem duplicates_settle (calls : List Call) (l : Ledger) :
    (settle calls l).duplicates =
      l.duplicates + UInt64.ofNat ((history calls l).countP Entry.hit) := by
  induction calls generalizing l with
  | nil => exact (UInt64.add_zero _).symm
  | cons c calls ih =>
      rw [settle_cons, ih, duplicates_perform, history, List.countP_cons, Nat.add_comm,
        UInt64.ofNat_add, UInt64.add_assoc]
      simp only [Entry.hit, decide_eq_true_eq]
      rfl

/-- Every check is a hit or a miss, and no other call is. -/
theorem countP_isCheck (calls : List Call) (l : Ledger) :
    calls.countP isCheck =
      (history calls l).countP Entry.hit + (history calls l).countP Entry.miss := by
  induction calls generalizing l with
  | nil => rfl
  | cons c calls ih =>
      have hrest := ih (c.make l).after
      have hcall : (if c.isCheck then 1 else 0) =
          (if (c.make l).hit then 1 else 0) + (if (c.make l).miss then 1 else 0) := by
        rcases perform_cases c l with ⟨name, s, rfl, -, e⟩ | ⟨name, s, rfl, -, e⟩ | ⟨s, rfl, -⟩ |
          ⟨rfl, -⟩
        · simp [make, e, Entry.hit, Entry.miss, isCheck]
        · simp [make, e, Entry.hit, Entry.miss, isCheck]
        · rfl
        · rfl
      rw [history, List.countP_cons, List.countP_cons, List.countP_cons]
      omega

/-! ## What becomes of the marks that were set -/

/-- The marks at the start and those that checks set are still there, or were
removed, or were cleared away. -/
theorem size_settle (calls : List Call) (l : Ledger) :
    l.size + (history calls l).countP Entry.miss =
      (settle calls l).size + (history calls l).countP Entry.reverts +
        ((history calls l).map Entry.cleared).sum := by
  induction calls generalizing l with
  | nil => rfl
  | cons c calls ih =>
      have hrest := ih (c.make l).after
      have hcall : l.size + (if (c.make l).miss then 1 else 0) =
          (c.make l).after.size + (if (c.make l).reverts then 1 else 0) + (c.make l).cleared := by
        rcases perform_cases c l with ⟨name, s, rfl, -, e⟩ | ⟨name, s, rfl, -, e⟩ | ⟨s, rfl, e⟩ |
          ⟨rfl, e⟩
        · simp [make, e, Entry.miss, Entry.reverts, Entry.cleared, size]
        · simp [make, e, Entry.miss, Entry.reverts, Entry.cleared, size]
        · -- a removal changes the size when there is something to remove
          by_cases hs : s ∈ l.marks
          · have := List.length_pos_of_mem hs
            simp [make, e, Entry.miss, Entry.reverts, Entry.cleared, size, hs,
              List.length_erase_of_mem]
            omega
          · simp [make, e, Entry.miss, Entry.reverts, Entry.cleared, size, hs,
              List.erase_of_not_mem]
        · simp [make, e, Entry.miss, Entry.reverts, Entry.cleared, size, Ledger.clear]
      rw [history, settle_cons, List.countP_cons, List.countP_cons, List.map_cons,
        List.sum_cons]
      show _ = (settle calls (c.make l).after).size + _ + _
      omega

end Call

/-! ## The operations as they are called -/

/-- A call from outside.  A sample is given by its fingerprint, or by its name,
labels and time. -/
inductive Request where
  | check (name : String) (fingerprint : UInt64)
  | checkLabels (name : String) (keys values : List String) (time : Option Instant)
  | unmark (fingerprint : UInt64)
  | unmarkLabels (name : String) (keys values : List String) (time : Option Instant)
  | clear

namespace Request

open Call (history settle Standing)

def perform (l : Ledger) : Request → Option Bool × Ledger
  | .check name s => Prod.map some id (l.check name s).value
  | .checkLabels name keys values time =>
      Prod.map some id (l.checkLabels name keys values time).value
  | .unmark s => (none, l.unmark s)
  | .unmarkLabels name keys values time => (none, l.unmarkLabels name keys values time)
  | .clear => (none, l.clear)

/-- The answers to requests made one after another, and the ledger after the last. -/
def performAll : List Request → Ledger → List (Option Bool) × Ledger
  | [], l => ([], l)
  | r :: requests, l =>
      ((r.perform l).1 :: (performAll requests (r.perform l).2).1,
        (performAll requests (r.perform l).2).2)

/-- The same, with the fingerprint that is behind name, labels and time. -/
def call : Request → Call
  | .check name s => .check name s
  | .checkLabels name keys values time => .check name (Fingerprint.of name keys values time)
  | .unmark s => .unmark s
  | .unmarkLabels name keys values time => .unmark (Fingerprint.of name keys values time)
  | .clear => .clear

theorem perform_eq (r : Request) (l : Ledger) : r.perform l = r.call.perform l := by
  cases r with
  | check name s => rfl
  | checkLabels name keys values time => rfl
  | unmark s => rfl
  | unmarkLabels name keys values time => rfl
  | clear => rfl

theorem performAll_eq (requests : List Request) (l : Ledger) :
    performAll requests l =
      ((history (requests.map call) l).map (·.answer), settle (requests.map call) l) := by
  induction requests generalizing l with
  | nil => rfl
  | cons r requests ih =>
      rw [performAll, ih, perform_eq]
      rfl

end Request

/-! ## The reckoning -/

open Call (history settle Standing)

/-- What holds of a ledger that was empty, when some calls have been made. -/
structure Reckoning (calls : List Call) : Prop where
  /-- Every call was made where the one before it left off, and a check answers
  whether its fingerprint was marked then. -/
  answered : ∀ pre e post, history calls empty = pre ++ e :: post →
    e.before = settle (pre.map (·.call)) empty ∧
    e.after = settle (pre.map (·.call) ++ [e.call]) empty ∧
    ∀ name s, e.call = .check name s → e.answer = some (decide (s ∈ e.before.marks))
  /-- No fingerprint is marked twice, and one is marked exactly when the last call
  that concerns it is a check. -/
  nodup : (settle calls empty).marks.Nodup
  standing : ∀ s, s ∈ (settle calls empty).marks ↔ Standing s calls
  /-- Size and gauge are the number of fingerprints that are marked. -/
  size : (settle calls empty).size = (settle calls empty).marks.toFinset.card
  gauge : (settle calls empty).unique.toInt = (settle calls empty).marks.toFinset.card
  /-- The counters are the numbers of checks and of those that found a mark. -/
  checks : (settle calls empty).checks.toNat = calls.countP Call.isCheck
  duplicates : (settle calls empty).duplicates.toNat = (history calls empty).countP Entry.hit
  monotone : ∀ e ∈ history calls empty,
    e.before.checks ≤ e.after.checks ∧ e.before.duplicates ≤ e.after.duplicates
  /-- The checks that found no mark are accounted for. -/
  balanced : ((settle calls empty).checks.toNat : Int) - (settle calls empty).duplicates.toNat =
    (settle calls empty).unique.toInt + (history calls empty).countP Entry.reverts +
      ((history calls empty).map Entry.cleared).sum

section Counts

variable {calls : List Call} (h : calls.length < 2 ^ 63)
include h

theorem toNat_checks_settle : (settle calls empty).checks.toNat = calls.countP Call.isCheck := by
  have hle : calls.countP Call.isCheck ≤ calls.length := List.countP_le_length
  rw [Call.checks_settle]
  show (0 + UInt64.ofNat _).toNat = _
  rw [UInt64.zero_add, UInt64.toNat_ofNat']
  exact Nat.mod_eq_of_lt (by omega)

theorem toNat_duplicates_settle :
    (settle calls empty).duplicates.toNat = (history calls empty).countP Entry.hit := by
  have hle : (history calls empty).countP Entry.hit ≤ (history calls empty).length :=
    List.countP_le_length
  rw [Call.length_history] at hle
  rw [Call.duplicates_settle]
  show (0 + UInt64.ofNat _).toNat = _
  rw [UInt64.zero_add, UInt64.toNat_ofNat']
  exact Nat.mod_eq_of_lt (by omega)

/-- A ledger has no more marks than calls were made, so its gauge has room for them. -/
theorem toInt_unique_settle : (settle calls empty).unique.toInt = (settle calls empty).size := by
  have hsize := Call.size_settle calls empty
  have hle : (history calls empty).countP Entry.miss ≤ (history calls empty).length :=
    List.countP_le_length
  have hempty : empty.size = 0 := rfl
  rw [Call.length_history] at hle
  rw [(Call.settle_wellFormed empty_wellFormed calls).gauge]
  exact toInt_shown (by rw [← size]; omega)

/-- The counters never go back. -/
theorem counters_le_settle {before after : List Call} (hcalls : calls = before ++ after) :
    (settle before empty).checks ≤ (settle calls empty).checks ∧
      (settle before empty).duplicates ≤ (settle calls empty).duplicates := by
  have hbefore : before.length < 2 ^ 63 := by
    rw [hcalls, List.length_append] at h
    omega
  rw [UInt64.le_iff_toNat_le, UInt64.le_iff_toNat_le, toNat_checks_settle h,
    toNat_checks_settle hbefore, toNat_duplicates_settle h, toNat_duplicates_settle hbefore,
    hcalls, Call.history_append, List.countP_append, List.countP_append]
  exact ⟨Nat.le_add_right _ _, Nat.le_add_right _ _⟩

end Counts

/-- However its operations are called, marks, answers, counters and gauge of a
ledger say the same about the calls. -/
theorem reckoning_of_requests (requests : List Request) (h : requests.length < 2 ^ 63) :
    Request.performAll requests empty =
      ((history (requests.map Request.call) empty).map (·.answer),
        settle (requests.map Request.call) empty) ∧
    Reckoning (requests.map Request.call) := by
  refine ⟨Request.performAll_eq requests empty, ?_⟩
  generalize hcalls : requests.map Request.call = calls
  have hlength : calls.length < 2 ^ 63 := by
    rw [← hcalls, List.length_map]
    exact h
  have hwf := Call.settle_wellFormed empty_wellFormed calls
  have hcard := List.toFinset_card_of_nodup hwf.nodup
  constructor
  · intro pre e post hsplit
    obtain ⟨-, he⟩ := Call.eq_of_history_eq hsplit
    refine ⟨congrArg Entry.before he, ?_, ?_⟩
    · rw [Call.settle_append]
      exact congrArg Entry.after he
    · intro name s hcall
      have hanswer := congrArg Entry.answer he
      have hbefore := congrArg Entry.before he
      rw [hcall] at hanswer hbefore
      rw [hanswer, hbefore]
      by_cases hs : s ∈ (settle (pre.map (·.call)) empty).marks
      · simp [Call.make, Call.perform_check_of_mem name hs, hs]
      · simp [Call.make, Call.perform_check_of_not_mem name hs, hs]
  · exact hwf.nodup
  · intro s
    rw [Call.mem_marks_settle empty_wellFormed]
    exact or_iff_left fun hs => List.not_mem_nil hs.1
  · exact hcard.symm
  · rw [toInt_unique_settle hlength, hcard]
    rfl
  · exact toNat_checks_settle hlength
  · exact toNat_duplicates_settle hlength
  · intro e hmem
    obtain ⟨pre, post, hsplit⟩ := List.append_of_mem hmem
    obtain ⟨-, he⟩ := Call.eq_of_history_eq hsplit
    have hcut : calls = pre.map (·.call) ++ [e.call] ++ post.map (·.call) := by
      rw [← Call.map_call_history calls empty, hsplit, List.map_append, List.map_cons,
        List.append_cons]
    have hshort : (pre.map (·.call) ++ [e.call]).length < 2 ^ 63 := by
      rw [hcut, List.length_append] at hlength
      omega
    have hle := counters_le_settle hshort rfl
    rw [Call.settle_append] at hle
    rw [he]
    exact hle
  · rw [toInt_unique_settle hlength, toNat_checks_settle hlength,
      toNat_duplicates_settle hlength, Call.countP_isCheck calls empty]
    have hsize := Call.size_settle calls empty
    have hempty : empty.size = 0 := rfl
    omega

/-- A sample is checked twice and another one once; then a mark is removed that is
there, and one that is not. -/
theorem reckoning_of_requests_up :
    5 < 2 ^ 63 ∧
      Reckoning ([.checkLabels "up" ["zone"] ["eu"] none,
        .checkLabels "up" ["zone"] ["eu"] none, .check "down" 7, .unmark 7,
        .unmarkLabels "up" [] [] none].map Request.call) ∧
      (Request.performAll [.checkLabels "up" ["zone"] ["eu"] none,
        .checkLabels "up" ["zone"] ["eu"] none, .check "down" 7, .unmark 7,
        .unmarkLabels "up" [] [] none] empty).1 =
          [some false, some true, some false, none, none] :=
  ⟨by decide, (reckoning_of_requests _ (by decide)).2, by decide +kernel⟩

end Scrape.Ledger
