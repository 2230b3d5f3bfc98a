/-
The labels of a sample, source by source.

However a policy arranges its sources, the labels of a sample are what is left of
one list, in which the sources stand one after another and the first pair of a
key counts (`value_join`).  As a map the labels are the lookup in that list
(`get?_join`).  A payload is one stretch of the list, and its keys are distinct;
so the order of its members may matter for the order of the labels, but not for
the map (`get?_join_of_perm`).
-/
import Scrape.LabelPolicy
import Scrape.Proofs.Json.Members
import Scrape.Proofs.Labels

namespace Scrape

/-! ## Lookup in a list of pairs -/

theorem lookup_singleton (key value k : String) :
    [(key, value)].lookup k = if k = key then some value else none := by
  by_cases hk : k = key
  · simp [hk]
  · simp [List.lookup_cons, beq_false_of_ne hk, hk]

theorem lookup_eq_some_iff_mem {pairs : List (String × String)}
    (hn : (pairs.map Prod.fst).Nodup) {key value : String} :
    pairs.lookup key = some value ↔ (key, value) ∈ pairs := by
  rw [List.lookup_eq_some_iff]
  constructor
  · rintro ⟨front, back, rfl, -⟩
    exact List.mem_append_right front List.mem_cons_self
  · intro hmem
    obtain ⟨front, back, rfl⟩ := List.append_of_mem hmem
    refine ⟨front, back, rfl, ?_⟩
    intro p hp
    rw [List.map_append, List.map_cons, List.nodup_append] at hn
    rw [bne_iff_ne]
    exact (hn.2.2 p.1 (List.mem_map_of_mem hp) key List.mem_cons_self).symm

theorem lookup_eq_none_iff_not_mem {pairs : List (String × String)} {key : String} :
    pairs.lookup key = none ↔ key ∉ pairs.map Prod.fst := by
  rw [List.lookup_eq_none_iff, List.mem_map, not_exists]
  constructor
  · rintro h q ⟨hq, rfl⟩
    exact absurd (h q hq) (by simp)
  · intro h q hq
    rw [bne_iff_ne]
    rintro rfl
    exact h q ⟨hq, rfl⟩

/-- Where keys are distinct, their order is of no account to a lookup. -/
theorem lookup_eq_of_perm {pairs pairs' : List (String × String)}
    (hn : (pairs.map Prod.fst).Nodup) (h : pairs.Perm pairs') (key : String) :
    pairs.lookup key = pairs'.lookup key := by
  have hn' : (pairs'.map Prod.fst).Nodup := (h.map Prod.fst).nodup_iff.mp hn
  apply Option.ext
  intro value
  rw [lookup_eq_some_iff_mem hn, lookup_eq_some_iff_mem hn', h.mem_iff]

namespace Labels

/-! ## Absorbed labels as a map -/

theorem get?_eq_none_iff {s : Labels} (h : s.WellFormed) {key : String} :
    s.get? key = none ↔ key ∉ s.keys := by
  rw [← h.map_fst_toList, Option.eq_none_iff_forall_ne_some, List.mem_map, not_exists]
  constructor
  · rintro hnone ⟨k, value⟩ ⟨hmem, rfl⟩
    exact hnone value ((get?_eq_some_iff h).mpr hmem)
  · intro hkey value hvalue
    exact hkey (key, value) ⟨(get?_eq_some_iff h).mp hvalue, rfl⟩

theorem get?_push {s : Labels} (h : s.WellFormed) {key : String} (value : String)
    (hkey : key ∉ s.keys) (k : String) :
    (s.push key value).get? k = (s.get? k).or ([(key, value)].lookup k) := by
  have hrows : (s.push key value).toList = s.toList ++ [(key, value)] :=
    List.zip_append h.length_eq.symm
  apply Option.ext
  intro v
  rw [get?_eq_some_iff (h.push value hkey), hrows, List.mem_append, List.mem_singleton,
    ← get?_eq_some_iff h, Prod.mk.injEq, lookup_singleton]
  by_cases hk : k = key
  · rw [hk, (get?_eq_none_iff h).mpr hkey]
    simp [eq_comm]
  · simp [hk]

theorem get?_insertIfNew {s : Labels} (h : s.WellFormed) (key value k : String) :
    (s.insertIfNew key value).get? k = (s.get? k).or ([(key, value)].lookup k) := by
  by_cases hkey : key ∈ s.keys
  · rw [insertIfNew_of_mem value hkey, lookup_singleton]
    by_cases hk : k = key
    · have hset : s.get? key ≠ none := mt (get?_eq_none_iff h).mp (not_not_intro hkey)
      obtain ⟨v, hv⟩ := Option.ne_none_iff_exists'.mp hset
      rw [hk, hv]
      rfl
    · rw [if_neg hk, Option.or_none]
  · rw [insertIfNew_of_not_mem value hkey]
    exact get?_push h value hkey k

/-- A set keeps what it has, and takes the first value of every other key. -/
theorem get?_absorb {s : Labels} (h : s.WellFormed) (pairs : List (String × String))
    (key : String) : (s.absorb pairs).get? key = (s.get? key).or (pairs.lookup key) := by
  induction pairs generalizing s with
  | nil => exact (Option.or_none).symm
  | cons p pairs ih =>
      rw [absorb_cons, ih (h.insertIfNew p.1 p.2), get?_insertIfNew h, Option.or_assoc,
        ← List.lookup_append]
      rfl

theorem get?_ofList (pairs : List (String × String)) (key : String) :
    (ofList pairs).get? key = pairs.lookup key := by
  rw [ofList, get?_absorb empty_wellFormed]
  rfl

/-- A payload that is passed over has no labels to add. -/
theorem value_absorbPayload (s : Labels) (payload : List UInt8) :
    (s.absorbPayload payload).value = s.absorb ((Payload.labels payload).toOption.getD []) := by
  rw [absorbPayload]
  cases Payload.labels payload <;> rfl

end Labels

namespace LabelPolicy

/-! ## One list for all sources -/

variable (p : LabelPolicy)

/-- The labels that come from a payload: none if it is passed over. -/
def given (payload : List UInt8) : List (String × String) :=
  if p.payloads then (Payload.labels payload).toOption.getD [] else []

theorem given_eq_nil (payload : List UInt8)
    (h : p.payloads = false ∨ ∃ fault, Payload.labels payload = .error fault) :
    p.given payload = [] := by
  rw [given]
  rcases h with hp | ⟨fault, hfault⟩
  · rw [hp]
    rfl
  · rw [hfault]
    exact ite_self _

theorem value_absorbPayload (s : Labels) (payload : List UInt8) :
    (p.absorbPayload s payload).value = s.absorb (p.given payload) := by
  rw [absorbPayload, given]
  by_cases hp : p.payloads
  · rw [if_pos hp, if_pos hp, Labels.value_absorbPayload]
  · rw [if_neg hp, if_neg hp]
    rfl

/-- The labels of a payload and those of the user, in the order of the policy. -/
def further (payload : List UInt8) : List (String × String) :=
  if p.userFirst then p.userLabels.toList ++ p.given payload
  else p.given payload ++ p.userLabels.toList

/-- All that is offered as a label of a sample. -/
def sources (unit : String) (metric resource : SortedLabels) (payload : List UInt8) :
    List (String × String) :=
  (unitKey, unit) :: metric.toList ++ resource.toList ++ p.further payload

theorem value_join (unit : String) (metric resource : SortedLabels) (payload : List UInt8) :
    (p.join unit metric resource payload).value =
      Labels.ofList (p.sources unit metric resource payload) := by
  rw [join, sources, further, Labels.ofList]
  by_cases hu : p.userFirst
  · rw [if_pos hu, if_pos hu, value_absorbPayload]
    simp only [Labels.absorb_append, Labels.absorb_cons]
  · rw [if_neg hu, if_neg hu, Logged.value_bind, value_absorbPayload]
    simp only [Labels.absorb_append, Labels.absorb_cons]
    rfl

theorem join_wellFormed (unit : String) (metric resource : SortedLabels)
    (payload : List UInt8) : (p.join unit metric resource payload).value.WellFormed := by
  rw [value_join]
  exact Labels.ofList_wellFormed _

theorem get?_join (unit : String) (metric resource : SortedLabels) (payload : List UInt8)
    (key : String) :
    (p.join unit metric resource payload).value.get? key =
      (p.sources unit metric resource payload).lookup key := by
  rw [value_join, Labels.get?_ofList]

/-- The order of the members of a payload makes no difference to the map. -/
theorem get?_join_of_perm (unit : String) (metric resource : SortedLabels)
    {payload payload' : List UInt8} {pairs pairs' : List (String × String)}
    (h : Payload.labels payload = .ok pairs) (h' : Payload.labels payload' = .ok pairs')
    (hperm : pairs.Perm pairs') (key : String) :
    (p.join unit metric resource payload).value.get? key =
      (p.join unit metric resource payload').value.get? key := by
  have hgiven : (p.given payload).lookup key = (p.given payload').lookup key := by
    rw [given, given, h, h']
    by_cases hp : p.payloads
    · rw [if_pos hp, if_pos hp]
      exact lookup_eq_of_perm (Payload.labels_nodup h) hperm key
    · rw [if_neg hp, if_neg hp]
  have hfurther : (p.further payload).lookup key = (p.further payload').lookup key := by
    rw [further, further]
    by_cases hu : p.userFirst
    · rw [if_pos hu, if_pos hu, List.lookup_append, List.lookup_append, hgiven]
    · rw [if_neg hu, if_neg hu, List.lookup_append, List.lookup_append, hgiven]
  simp only [get?_join, sources, List.lookup_append, hfurther]

end LabelPolicy

end Scrape
