/-
What arrives when streams come together.

Shards are cut into pieces and each piece becomes a stream; what arrives is an
interleaving of the streams.  An interleaving is a list whose items can each be
ascribed to a stream, such that the items ascribed to a stream are that stream,
in its order (`Interleaving`).  The lists that can be delivered are exactly the
interleavings (`interleaving_iff_exists_deliver`), so a statement about all
picks is one about all of them.  Each has every item of every stream once, and
of a single stream there is only one.
-/
import Mathlib.Data.List.Induction
import Mathlib.Data.List.Perm.Basic
import Scrape.Delivery

namespace Scrape.Delivery

variable {α β : Type}

/-! ## Cutting -/

theorem length_chunks_le {size n : Nat} {xs : List α} (h : xs.length ≤ n * size) :
    (chunks size xs).length ≤ n := by
  fun_induction chunks size xs generalizing n with
  | case1 => exact Nat.zero_le n
  | case2 x xs ih =>
      cases n with
      | zero =>
          rw [Nat.zero_mul] at h
          exact absurd h (Nat.not_succ_le_zero _)
      | succ n =>
          rw [List.length_cons, Nat.succ_mul] at h
          refine Nat.succ_le_succ (ih ?_)
          rw [List.length_drop]
          omega

/-- No more pieces than workers: their size is rounded up. -/
theorem length_split_le {workers : Nat} (h : 0 < workers) (xs : List α) :
    (split workers xs).length ≤ workers := by
  refine length_chunks_le ?_
  have hdiv := Nat.div_add_mod (xs.length + workers - 1) workers
  have hmod := Nat.mod_lt (xs.length + workers - 1) h
  omega

/-! ## Interleavings -/

/-- The items of one stream, in the order in which they arrived. -/
def sentBy (i : Nat) (arrivals : List (Nat × α)) : List α :=
  (arrivals.filter (·.1 = i)).map (·.2)

/-- The items of some streams, those of each stream in their order. -/
def Interleaving (streams : List (List α)) (xs : List α) : Prop :=
  ∃ arrivals : List (Nat × α), arrivals.map (·.2) = xs ∧
    ∀ i, sentBy i arrivals = streams[i]?.getD []

theorem sentBy_cons (i : Nat) (a : Nat × α) (arrivals : List (Nat × α)) :
    sentBy i (a :: arrivals) = if a.1 = i then a.2 :: sentBy i arrivals else sentBy i arrivals := by
  by_cases h : a.1 = i <;> simp [sentBy, h]

theorem sentBy_append (i : Nat) (arrivals more : List (Nat × α)) :
    sentBy i (arrivals ++ more) = sentBy i arrivals ++ sentBy i more := by
  simp [sentBy]

theorem sentBy_stream (i j : Nat) (stream : List α) :
    sentBy i (stream.map (j, ·)) = if j = i then stream else [] := by
  induction stream with
  | nil => simp [sentBy]
  | cons x stream ih =>
      rw [List.map_cons, sentBy_cons, ih]
      by_cases h : j = i
      · simp [h]
      · simp [h]

theorem Interleaving.cons {streams : List (List α)} {i : Nat} {x : α} {rest xs : List α}
    (hi : streams[i]? = some (x :: rest)) (h : Interleaving (streams.set i rest) xs) :
    Interleaving streams (x :: xs) := by
  obtain ⟨arrivals, rfl, hsent⟩ := h
  obtain ⟨hlt, -⟩ := List.getElem?_eq_some_iff.mp hi
  refine ⟨(i, x) :: arrivals, rfl, ?_⟩
  intro j
  rw [sentBy_cons, hsent]
  by_cases hj : i = j
  · subst hj
    rw [if_pos rfl, List.getElem?_set_self hlt, hi]
    rfl
  · rw [if_neg hj, List.getElem?_set_ne hj]

/-- Another stream may arrive behind all others. -/
theorem Interleaving.append {streams : List (List α)} {xs : List α} (h : Interleaving streams xs)
    (stream : List α) : Interleaving (streams ++ [stream]) (xs ++ stream) := by
  obtain ⟨arrivals, rfl, hsent⟩ := h
  refine ⟨arrivals ++ stream.map (streams.length, ·), ?_, ?_⟩
  · rw [List.map_append, List.map_map]
    exact congrArg _ (List.map_id stream)
  · intro i
    rw [sentBy_append, hsent, sentBy_stream]
    rcases Nat.lt_trichotomy i streams.length with hi | rfl | hi
    · rw [if_neg (by omega), List.append_nil, List.getElem?_append_left hi]
    · simp
    · rw [if_neg (by omega), List.append_nil, List.getElem?_eq_none (by omega),
        List.getElem?_eq_none (by rw [List.length_append, List.length_singleton]; omega)]

theorem flatten_interleaving (streams : List (List α)) : Interleaving streams streams.flatten := by
  induction streams using List.reverseRecOn with
  | nil => exact ⟨[], rfl, fun i => rfl⟩
  | append_singleton streams stream ih =>
      rw [List.flatten_append, List.flatten_singleton]
      exact ih.append stream

/-! ## What is delivered -/

theorem deliver_cons_of_some {streams : List (List α)} {i : Nat} {x : α} {rest : List α}
    (h : streams[i]? = some (x :: rest)) (picks : List Nat) :
    deliver (i :: picks) streams = x :: deliver picks (streams.set i rest) := by
  rw [deliver, h]

/-- A pick takes the next item of its stream, or nothing if there is none. -/
theorem deliver_cons_cases (i : Nat) (picks : List Nat) (streams : List (List α)) :
    (∃ x rest, streams[i]? = some (x :: rest) ∧
      deliver (i :: picks) streams = x :: deliver picks (streams.set i rest)) ∨
    ((∀ x rest, streams[i]? ≠ some (x :: rest)) ∧
      deliver (i :: picks) streams = deliver picks streams) := by
  rw [deliver]
  split
  · next x rest h => exact .inl ⟨x, rest, h, rfl⟩
  · next h => exact .inr ⟨h, rfl⟩

theorem deliver_interleaving (picks : List Nat) (streams : List (List α)) :
    Interleaving streams (deliver picks streams) := by
  induction picks generalizing streams with
  | nil => exact flatten_interleaving streams
  | cons i picks ih =>
      obtain ⟨x, rest, hi, e⟩ | ⟨-, e⟩ := deliver_cons_cases i picks streams
      · rw [e]
        exact .cons hi (ih _)
      · rw [e]
        exact ih streams

/-- What arrives first is the head of its stream, and what comes then is ascribed to what
the streams still have. -/
theorem sentBy_cons_cases {streams : List (List α)} {a : Nat × α} {arrivals : List (Nat × α)}
    (h : ∀ i, sentBy i (a :: arrivals) = streams[i]?.getD []) :
    streams[a.1]? = some (a.2 :: sentBy a.1 arrivals) ∧
      ∀ i, sentBy i arrivals = (streams.set a.1 (sentBy a.1 arrivals))[i]?.getD [] := by
  have hhead := h a.1
  rw [sentBy_cons, if_pos rfl] at hhead
  have hstream : streams[a.1]? = some (a.2 :: sentBy a.1 arrivals) := by
    cases hs : streams[a.1]? with
    | none =>
        rw [hs] at hhead
        exact nomatch hhead
    | some stream =>
        rw [hs, Option.getD_some] at hhead
        rw [hhead]
  obtain ⟨hlt, -⟩ := List.getElem?_eq_some_iff.mp hstream
  refine ⟨hstream, ?_⟩
  intro i
  by_cases hi : a.1 = i
  · rw [← hi, List.getElem?_set_self hlt]
    rfl
  · rw [List.getElem?_set_ne hi, ← h i, sentBy_cons, if_neg hi]

/-- The streams of the arrivals, picked one after another, give the arrivals. -/
theorem deliver_eq_of_sentBy {streams : List (List α)} {arrivals : List (Nat × α)}
    (h : ∀ i, sentBy i arrivals = streams[i]?.getD []) :
    deliver (arrivals.map (·.1)) streams = arrivals.map (·.2) := by
  induction arrivals generalizing streams with
  | nil =>
      refine List.flatten_eq_nil_iff.mpr ?_
      intro stream hstream
      obtain ⟨i, hi⟩ := List.mem_iff_getElem?.mp hstream
      have hnil := h i
      rw [hi] at hnil
      exact hnil.symm
  | cons a arrivals ih =>
      obtain ⟨hstream, hrest⟩ := sentBy_cons_cases h
      rw [List.map_cons, List.map_cons, deliver_cons_of_some hstream]
      exact congrArg (a.2 :: ·) (ih hrest)

theorem interleaving_iff_exists_deliver {streams : List (List α)} {xs : List α} :
    Interleaving streams xs ↔ ∃ picks, deliver picks streams = xs := by
  constructor
  · rintro ⟨arrivals, rfl, h⟩
    exact ⟨arrivals.map (·.1), deliver_eq_of_sentBy h⟩
  · rintro ⟨picks, rfl⟩
    exact deliver_interleaving picks streams

theorem flatten_set_perm {streams : List (List α)} {i : Nat} {x : α} {rest : List α}
    (h : streams[i]? = some (x :: rest)) :
    (x :: (streams.set i rest).flatten).Perm streams.flatten := by
  obtain ⟨hlt, hget⟩ := List.getElem?_eq_some_iff.mp h
  have hset : streams.set i rest = streams.take i ++ rest :: streams.drop (i + 1) :=
    List.set_eq_take_append_cons_drop.trans (if_pos hlt)
  have hsplit : streams = streams.take i ++ (x :: rest) :: streams.drop (i + 1) := by
    rw [← hget, List.getElem_cons_drop, List.take_append_drop]
  rw [hset]
  conv => rhs; rw [hsplit]
  simp only [List.flatten_append, List.flatten_cons, List.cons_append]
  exact List.perm_middle.symm

theorem deliver_perm (picks : List Nat) (streams : List (List α)) :
    (deliver picks streams).Perm streams.flatten := by
  induction picks generalizing streams with
  | nil => exact .refl _
  | cons i picks ih =>
      obtain ⟨x, rest, hi, e⟩ | ⟨-, e⟩ := deliver_cons_cases i picks streams
      · rw [e]
        exact ((ih _).cons x).trans (flatten_set_perm hi)
      · rw [e]
        exact ih streams

/-- Nothing is lost and nothing arrives twice. -/
theorem Interleaving.perm {streams : List (List α)} {xs : List α} (h : Interleaving streams xs) :
    xs.Perm streams.flatten := by
  obtain ⟨picks, rfl⟩ := interleaving_iff_exists_deliver.mp h
  exact deliver_perm picks streams

/-- What a single stream brings arrives in its order. -/
theorem Interleaving.eq_flatten {streams : List (List α)} {xs : List α}
    (h : Interleaving streams xs) (hlength : streams.length ≤ 1) : xs = streams.flatten := by
  obtain ⟨picks, rfl⟩ := interleaving_iff_exists_deliver.mp h
  clear h
  induction picks generalizing streams with
  | nil => rfl
  | cons i picks ih =>
      obtain ⟨x, rest, hi, e⟩ | ⟨-, e⟩ := deliver_cons_cases i picks streams
      · obtain ⟨hlt, -⟩ := List.getElem?_eq_some_iff.mp hi
        have hzero : i = 0 := by omega
        subst hzero
        match streams, hi with
        | [_], rfl =>
            rw [e, ih (by simp)]
            rfl
      · rw [e]
        exact ih hlength

/-- To change the items is to change what arrives. -/
theorem deliver_map (f : α → β) (picks : List Nat) (streams : List (List α)) :
    deliver picks (streams.map (List.map f)) = (deliver picks streams).map f := by
  induction picks generalizing streams with
  | nil => exact List.map_flatten.symm
  | cons i picks ih =>
      obtain ⟨x, rest, hi, e⟩ | ⟨hi, e⟩ := deliver_cons_cases i picks streams
      · have hmap : (streams.map (List.map f))[i]? = some (f x :: rest.map f) := by
          rw [List.getElem?_map, hi]
          rfl
        rw [e, deliver_cons_of_some hmap, ← List.map_set, ih]
        rfl
      · obtain ⟨y, rest, hmap, -⟩ | ⟨-, emap⟩ :=
          deliver_cons_cases i picks (streams.map (List.map f))
        · rw [List.getElem?_map, Option.map_eq_some_iff] at hmap
          obtain ⟨stream, hstream, hcons⟩ := hmap
          obtain ⟨x, xs, rfl, -⟩ := List.map_eq_cons_iff.mp hcons
          exact absurd hstream (hi x xs)
        · rw [e, emap]
          exact ih streams

end Scrape.Delivery
