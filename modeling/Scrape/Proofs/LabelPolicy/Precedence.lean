/-
Which source a label comes from.

Every sample has five sources of labels, and a policy ranks them.  Its labels
are the rows of all sources from the highest rank to the lowest, less every row
whose key stands before it (`precedence_join`).  Nothing is lost but what a
higher source overrules: a key is there exactly when a source has it, and its
value is that of the first source that does.
-/
import Scrape.Proofs.LabelPolicy

namespace Scrape

/-- One list of pairs after another is looked up like the first list that has the key. -/
theorem lookup_flatten (sources : List (List (String × String))) (key : String) :
    sources.flatten.lookup key = sources.findSome? (·.lookup key) := by
  induction sources with
  | nil => rfl
  | cons source sources ih =>
      rw [List.flatten_cons, List.lookup_append, ih, List.findSome?_cons]
      cases source.lookup key <;> rfl

theorem SortedLabels.nodup_keys (m : SortedLabels) : (m.toList.map Prod.fst).Nodup := by
  rw [List.Nodup, List.pairwise_map]
  refine m.ascending.imp ?_
  rintro p q hlt heq
  rw [heq] at hlt
  exact List.lt_irrefl _ hlt

namespace LabelPolicy

variable (p : LabelPolicy) (unit : String) (metric resource : SortedLabels)
  (payload : List UInt8)

theorem nodup_keys_given : ((p.given payload).map Prod.fst).Nodup := by
  rw [given]
  split
  · cases hlabels : Payload.labels payload with
    | ok pairs => exact Payload.labels_nodup hlabels
    | error fault => exact List.nodup_nil
  · exact List.nodup_nil

/-- The sources of the labels of a sample, from the highest rank to the lowest. -/
def ranked : List (List (String × String)) :=
  [(unitKey, unit)] :: metric.toList :: resource.toList ::
    if p.userFirst then [p.userLabels.toList, p.given payload]
    else [p.given payload, p.userLabels.toList]

theorem flatten_ranked :
    (p.ranked unit metric resource payload).flatten = p.sources unit metric resource payload := by
  rw [ranked, sources, further]
  split <;> simp

theorem nodup_keys_of_mem_ranked :
    ∀ source ∈ p.ranked unit metric resource payload, (source.map Prod.fst).Nodup := by
  have huser := p.userLabels.nodup_keys
  have hgiven := p.nodup_keys_given payload
  rw [ranked, List.forall_mem_cons, List.forall_mem_cons, List.forall_mem_cons]
  refine ⟨List.nodup_singleton unitKey, metric.nodup_keys, resource.nodup_keys, ?_⟩
  by_cases hu : p.userFirst
  · rw [if_pos hu]
    exact List.forall_mem_cons.mpr ⟨huser, List.forall_mem_singleton.mpr hgiven⟩
  · rw [if_neg hu]
    exact List.forall_mem_cons.mpr ⟨hgiven, List.forall_mem_singleton.mpr huser⟩

/-- How the labels of a sample come from its sources. -/
structure Precedence : Prop where
  /-- The rows are the first pairs of the keys of all sources, one source after another. -/
  rows : (p.join unit metric resource payload).value.toList =
    Labels.firsts (p.ranked unit metric resource payload).flatten
  length_eq : (p.join unit metric resource payload).value.values.length =
    (p.join unit metric resource payload).value.keys.length
  /-- No key is repeated. -/
  nodup : (p.join unit metric resource payload).value.keys.Nodup
  /-- No key is lost, and none is made up. -/
  mem_keys : ∀ key, key ∈ (p.join unit metric resource payload).value.keys ↔
    ∃ source ∈ p.ranked unit metric resource payload, key ∈ source.map Prod.fst
  /-- A source has one value for a key at most. -/
  distinct : ∀ source ∈ p.ranked unit metric resource payload, (source.map Prod.fst).Nodup
  /-- The first source that has a key gives it its value. -/
  get? : ∀ key, (p.join unit metric resource payload).value.get? key =
    (p.ranked unit metric resource payload).findSome? (·.lookup key)
  /-- The unit stands first, whatever the other sources say. -/
  unit_first : (p.join unit metric resource payload).value.toList.head? = some (unitKey, unit)
  get?_unit : (p.join unit metric resource payload).value.get? unitKey = some unit

/-- The labels of a sample are all pairs of its sources, ranked, less those whose key a pair
before them has. -/
theorem precedence_join : p.Precedence unit metric resource payload := by
  have hwf := p.join_wellFormed unit metric resource payload
  have hrows : (p.join unit metric resource payload).value.toList =
      Labels.firsts (p.ranked unit metric resource payload).flatten := by
    rw [value_join, Labels.ofList_eq_ofRows, Labels.toList_ofRows, flatten_ranked]
  have hget : ∀ key, (p.join unit metric resource payload).value.get? key =
      (p.ranked unit metric resource payload).findSome? (·.lookup key) := by
    intro key
    rw [get?_join, ← flatten_ranked, lookup_flatten]
  constructor
  case rows => exact hrows
  case length_eq => exact hwf.length_eq
  case nodup => exact hwf.nodup
  case mem_keys =>
    intro key
    rw [← not_iff_not, ← Labels.get?_eq_none_iff hwf, hget, List.findSome?_eq_none_iff, not_exists]
    simp only [lookup_eq_none_iff_not_mem, not_and]
  case distinct => exact p.nodup_keys_of_mem_ranked unit metric resource payload
  case get? => exact hget
  case unit_first =>
    rw [hrows, ranked, List.flatten_cons, List.singleton_append, Labels.firsts_cons]
    rfl
  case get?_unit =>
    rw [hget, ranked, List.findSome?_cons, List.lookup_cons_self]

end LabelPolicy

end Scrape
