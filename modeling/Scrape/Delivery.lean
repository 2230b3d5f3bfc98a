/-
Streams that arrive together.

Several workers send their items at their own pace.  What arrives is an
interleaving of their streams: the items of one worker stay in order, and
nothing else is certain.  The pace is given by a list of picks, each of which
takes the next item of one stream.
-/

namespace Scrape.Delivery

variable {α : Type}

/-- The items of some streams in the order of the picks.  A pick of a stream that has no item left
takes nothing, and what is left after the last pick arrives stream by stream. -/
def deliver : List Nat → List (List α) → List α
  | [], streams => streams.flatten
  | i :: picks, streams =>
    match streams[i]? with
    | some (x :: rest) => x :: deliver picks (streams.set i rest)
    | _ => deliver picks streams

/-- A list cut into pieces of `size` items, or of one where `size` is zero; the last piece may be
shorter. -/
def chunks (size : Nat) : List α → List (List α)
  | [] => []
  | x :: xs => (x :: xs.take (size - 1)) :: chunks size (xs.drop (size - 1))
termination_by xs => xs.length
decreasing_by simp only [List.length_drop, List.length_cons]; omega

/-- A list cut into at most `workers` pieces, as even as whole pieces allow. -/
def split (workers : Nat) (xs : List α) : List (List α) :=
  chunks ((xs.length + workers - 1) / workers) xs

/-- Nothing is lost or moved by cutting. -/
theorem flatten_chunks (size : Nat) (xs : List α) : (chunks size xs).flatten = xs := by
  fun_induction chunks size xs with
  | case1 => rfl
  | case2 x xs ih => rw [List.flatten_cons, ih, List.cons_append, List.take_append_drop]

/-- No piece is empty. -/
theorem ne_nil_of_mem_chunks {size : Nat} {xs piece : List α} (h : piece ∈ chunks size xs) :
    piece ≠ [] := by
  fun_induction chunks size xs with
  | case1 => simp at h
  | case2 x xs ih =>
    rcases List.mem_cons.1 h with rfl | h
    · simp
    · exact ih h

end Scrape.Delivery
