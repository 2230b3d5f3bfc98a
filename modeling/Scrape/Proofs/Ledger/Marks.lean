/-
The marks of a ledger, one operation at a time.

A ledger keeps its marks as a list and a gauge beside it.  Read as a set, the
list has to be free of repetitions: `unmark` erases one occurrence, so a
fingerprint that stood there twice would survive its own removal.  And the
gauge is a field of its own, so that it shows the number of marks is a fact
about the operations, not about the type.  `WellFormed` says both.  It holds of
the ledger without marks and every operation keeps it, which makes it the one
thing that may be asked of a ledger found in use.
-/
import Mathlib.Algebra.Group.Nat.Defs
import Scrape.Ledger

namespace Scrape.Ledger

/-- A ledger as its operations leave it: no fingerprint is marked twice, and the
gauge shows how many are marked. -/
structure WellFormed (l : Ledger) : Prop where
  nodup : l.marks.Nodup
  gauge : l.unique = shown l.marks.length

@[simp] theorem marks_withMarks (l : Ledger) (marks : List UInt64) :
    (l.withMarks marks).marks = marks := rfl

@[simp] theorem unique_withMarks (l : Ledger) (marks : List UInt64) :
    (l.withMarks marks).unique = shown marks.length := rfl

@[simp] theorem marks_countCheck (l : Ledger) : l.countCheck.marks = l.marks := rfl

@[simp] theorem unique_countCheck (l : Ledger) : l.countCheck.unique = l.unique := rfl

@[simp] theorem marks_countDuplicate (l : Ledger) : l.countDuplicate.marks = l.marks := rfl

@[simp] theorem unique_countDuplicate (l : Ledger) :
    l.countDuplicate.unique = l.unique := rfl

@[simp] theorem marks_unmark (l : Ledger) (s : UInt64) :
    (l.unmark s).marks = l.marks.erase s := rfl

/-! ## Counting in words -/

theorem add_ofNat_succ (a : UInt64) (n : Nat) :
    a + UInt64.ofNat (n + 1) = a + UInt64.ofNat n + 1 := by
  rw [UInt64.ofNat_add, ← UInt64.add_assoc]
  rfl

theorem add_one_add_ofNat (a : UInt64) (n : Nat) :
    a + 1 + UInt64.ofNat n = a + UInt64.ofNat (n + 1) := by
  rw [add_ofNat_succ, UInt64.add_assoc, UInt64.add_comm 1, ← UInt64.add_assoc]

theorem toNat_add_ofNat {a : UInt64} {n : Nat} (h : a.toNat + n < 2 ^ 64) :
    (a + UInt64.ofNat n).toNat = a.toNat + n := by
  rw [UInt64.toNat_add, UInt64.toNat_ofNat']
  omega

/-- A number that a signed word can hold is shown as it is. -/
theorem toInt_shown {n : Nat} (h : n < 2 ^ 63) : (shown n).toInt = n := by
  have hle : n ≤ SignedWord.largest := Nat.le_of_lt_succ h
  rw [shown, SignedWord.ofNat?, if_pos hle, Option.getD_some, Int64.toInt_ofNat_of_lt h]

/-! ## Every operation keeps a ledger well formed -/

theorem empty_wellFormed : empty.WellFormed :=
  ⟨List.nodup_nil, rfl⟩

theorem withMarks_wellFormed (l : Ledger) {marks : List UInt64} (h : marks.Nodup) :
    (l.withMarks marks).WellFormed :=
  ⟨h, rfl⟩

theorem clear_wellFormed (l : Ledger) : l.clear.WellFormed :=
  l.withMarks_wellFormed List.nodup_nil

namespace WellFormed

variable {l : Ledger}

theorem countCheck (h : l.WellFormed) : l.countCheck.WellFormed :=
  ⟨h.nodup, h.gauge⟩

theorem countDuplicate (h : l.WellFormed) : l.countDuplicate.WellFormed :=
  ⟨h.nodup, h.gauge⟩

theorem unmark (h : l.WellFormed) (s : UInt64) : (l.unmark s).WellFormed :=
  l.withMarks_wellFormed (h.nodup.erase s)

theorem check (h : l.WellFormed) (name : String) (s : UInt64) :
    (l.check name s).value.2.WellFormed := by
  by_cases hs : s ∈ l.marks
  · rw [check_of_mem name hs]
    exact h.countCheck.countDuplicate
  · rw [check_of_not_mem name hs]
    exact l.countCheck.withMarks_wellFormed (List.nodup_cons.mpr ⟨hs, h.nodup⟩)

end WellFormed

/-! ## Taking a mark back -/

/-- Whether a fingerprint is still marked once another one, or the same, is
taken away. -/
theorem mem_marks_unmark {l : Ledger} (h : l.WellFormed) {s t : UInt64} :
    s ∈ (l.unmark t).marks ↔ s ≠ t ∧ s ∈ l.marks :=
  h.nodup.mem_erase_iff

/-- A mark that was just set is taken back without a trace in the list. -/
theorem unmark_withMarks_cons (l : Ledger) (s : UInt64) (marks : List UInt64) :
    (l.withMarks (s :: marks)).unmark s = l.withMarks marks := by
  simp [unmark, withMarks]

end Scrape.Ledger
