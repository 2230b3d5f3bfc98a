/-
Sorted labels.

The labels of one source, such as the labels of a metric or those a user
configured: each key once, the keys in the order of their bytes.  The order is
part of the type, so the labels of a source have one form only.
-/
import Scrape.Utf8

namespace Scrape

/-- The labels of one source: pairs of key and value whose keys ascend. -/
structure SortedLabels where
  toList : List (String × String)
  ascending : toList.Pairwise fun a b => Utf8.lt a.1 b.1

namespace SortedLabels

/-- No labels. -/
def empty : SortedLabels := ⟨[], .nil⟩

instance : Inhabited SortedLabels := ⟨empty⟩

/-- How many labels there are. -/
def size (m : SortedLabels) : Nat := m.toList.length

/-- Puts a pair at its place among pairs whose keys ascend, in the place of a pair that has its
key. -/
def place (key value : String) : List (String × String) → List (String × String)
  | [] => [(key, value)]
  | p :: rest =>
    if Utf8.lt key p.1 then (key, value) :: p :: rest
    else if key = p.1 then (key, value) :: rest
    else p :: place key value rest

/-! ## Placing a pair keeps the order -/

/-- Every pair of the result is the new one or an old one. -/
theorem mem_place {key value : String} {q : String × String} {ps : List (String × String)}
    (h : q ∈ place key value ps) : q = (key, value) ∨ q ∈ ps := by
  induction ps with
  | nil => simpa [place] using h
  | cons p rest ih =>
    simp only [place] at h
    split at h
    · simpa using h
    · split at h
      · rcases List.mem_cons.1 h with h | h
        · exact .inl h
        · exact .inr (List.mem_cons_of_mem _ h)
      · rcases List.mem_cons.1 h with h | h
        · exact .inr (h ▸ List.mem_cons_self)
        · exact (ih h).imp_right (List.mem_cons_of_mem _)

theorem pairwise_place (key value : String) {ps : List (String × String)}
    (h : ps.Pairwise fun a b => Utf8.lt a.1 b.1) :
    (place key value ps).Pairwise fun a b => Utf8.lt a.1 b.1 := by
  induction ps with
  | nil => simp [place]
  | cons p rest ih =>
    obtain ⟨hp, hrest⟩ := List.pairwise_cons.1 h
    simp only [place]
    split
    · next hlt =>
      refine List.pairwise_cons.2 ⟨fun q hq => ?_, h⟩
      rcases List.mem_cons.1 hq with rfl | hq
      · exact hlt
      · exact Utf8.lt_trans hlt (hp q hq)
    · next hlt =>
      split
      · next heq => exact List.pairwise_cons.2 ⟨fun q hq => heq ▸ hp q hq, hrest⟩
      · next hne =>
        refine List.pairwise_cons.2 ⟨fun q hq => ?_, ih hrest⟩
        rcases mem_place hq with rfl | hq
        · exact Utf8.lt_of_not_lt hlt hne
        · exact hp q hq

/-! ## Building -/

/-- Sets the value of a key. -/
def insert (m : SortedLabels) (key value : String) : SortedLabels :=
  ⟨place key value m.toList, pairwise_place key value m.ascending⟩

/-- The labels of a list of pairs.  Of two pairs with one key the later counts. -/
def ofList (pairs : List (String × String)) : SortedLabels :=
  pairs.foldl (fun m p => m.insert p.1 p.2) empty

end SortedLabels

end Scrape
