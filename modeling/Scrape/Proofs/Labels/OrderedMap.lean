/-
Labels are an ordered map.

An ordered map is pairs in the order in which their keys were first set, each
key once.  Labels are the same kept as two columns: every operation on labels
that are the columns of a map gives the columns of the map that the operation
leads to (`perform_toLabels`), so that a list of requests, from whatever origin,
leaves the two in step, and every question about the labels has its answer in
the map (`Agrees`).  No request takes a key away or moves it; so a key keeps its
row for ever.

To replace a value is the one operation that finds a row in one column and
writes to the other.  It writes to the value of the key because no other row
has it (`set_values`).
-/
import Scrape.Proofs.LabelPolicy

namespace Scrape

namespace Labels

/-! ## Requests to labels -/

/-- What a set of labels is asked to do. -/
inductive Request where
  | insertIfNew (key value : String)
  | put (key value : String) (replacing : Bool)
  | absorbPayload (payload : List UInt8)

/-- A set of labels after a request. -/
def perform (s : Labels) : Request → Labels
  | .insertIfNew key value => s.insertIfNew key value
  | .put key value replacing => s.put key value replacing
  | .absorbPayload payload => (s.absorbPayload payload).value

/-- A set of labels after requests. -/
def performAll (s : Labels) (requests : List Request) : Labels :=
  requests.foldl perform s

/-- Puts pairs one after another. -/
def putAll (s : Labels) (pairs : List (String × String)) (replacing : Bool) : Labels :=
  pairs.foldl (fun s p => s.put p.1 p.2 replacing) s

end Labels

/-! ## Ordered maps -/

/-- Pairs in the order in which their keys were first set. -/
structure OrderedMap where
  rows : List (String × String)
  nodup : (rows.map Prod.fst).Nodup

namespace OrderedMap

/-- The map without pairs. -/
def empty : OrderedMap := ⟨[], .nil⟩

/-- The keys, in their order. -/
def keys (m : OrderedMap) : List String := m.rows.map Prod.fst

/-- The value of a key. -/
def find? (m : OrderedMap) (key : String) : Option String := m.rows.lookup key

/-- Adds a pair at the end. -/
def append (m : OrderedMap) (key value : String) (h : key ∉ m.keys) : OrderedMap where
  rows := m.rows ++ [(key, value)]
  nodup := by
    rw [List.map_append, List.map_singleton, ← List.concat_eq_append]
    exact m.nodup.concat h

/-- The pairs with another value for one key. -/
def revalue (key value : String) (rows : List (String × String)) : List (String × String) :=
  rows.map fun r => if r.1 = key then (key, value) else r

theorem map_fst_revalue (key value : String) (rows : List (String × String)) :
    (revalue key value rows).map Prod.fst = rows.map Prod.fst := by
  rw [revalue, List.map_map]
  refine List.map_congr_left fun r _ => ?_
  by_cases hr : r.1 = key
  · rw [Function.comp_apply, if_pos hr, hr]
  · rw [Function.comp_apply, if_neg hr]

/-- Replaces the value of a key. -/
def replace (m : OrderedMap) (key value : String) : OrderedMap where
  rows := revalue key value m.rows
  nodup := by
    rw [map_fst_revalue]
    exact m.nodup

theorem rows_replace (m : OrderedMap) (key value : String) :
    (m.replace key value).rows = revalue key value m.rows := rfl

/-- Adds a pair at the end unless its key is present. -/
def insertIfNew (m : OrderedMap) (key value : String) : OrderedMap :=
  if h : key ∈ m.keys then m else m.append key value h

/-- Gives a key its value: in its place if it is present, and else at the end. -/
def assign (m : OrderedMap) (key value : String) : OrderedMap :=
  if h : key ∈ m.keys then m.replace key value else m.append key value h

/-- Adds pairs one after another, skipping those whose key is present. -/
def insertAll (m : OrderedMap) (pairs : List (String × String)) : OrderedMap :=
  pairs.foldl (fun m p => m.insertIfNew p.1 p.2) m

/-- Assigns pairs one after another. -/
def assignAll (m : OrderedMap) (pairs : List (String × String)) : OrderedMap :=
  pairs.foldl (fun m p => m.assign p.1 p.2) m

/-- The columns of a map. -/
def toLabels (m : OrderedMap) : Labels := .ofRows m.rows

theorem toLabels_wellFormed (m : OrderedMap) : m.toLabels.WellFormed :=
  ⟨m.nodup, by rw [toLabels, Labels.ofRows, List.length_map, List.length_map]⟩

/-! ## What the labels of a map answer -/

theorem get?_toLabels (m : OrderedMap) (key : String) : m.toLabels.get? key = m.find? key := by
  apply Option.ext
  intro value
  rw [Labels.get?_eq_some_iff m.toLabels_wellFormed, toLabels, Labels.toList_ofRows, find?,
    lookup_eq_some_iff_mem m.nodup]

theorem contains_toLabels (m : OrderedMap) (key : String) :
    m.toLabels.contains key = (m.find? key).isSome := by
  rw [Bool.eq_iff_iff, Labels.contains_iff, Option.isSome_iff_ne_none, Ne, find?,
    lookup_eq_none_iff_not_mem, not_not]
  rfl

theorem row?_toLabels (m : OrderedMap) (key : String) :
    m.toLabels.row? key = m.keys.idxOf? key := by
  rfl

/-! ## Operations on labels and on maps -/

theorem insertIfNew_toLabels (m : OrderedMap) (key value : String) :
    m.toLabels.insertIfNew key value = (m.insertIfNew key value).toLabels := by
  rw [insertIfNew]
  by_cases hkey : key ∈ m.keys
  · rw [dif_pos hkey]
    exact Labels.insertIfNew_of_mem value hkey
  · rw [dif_neg hkey, Labels.insertIfNew_of_not_mem value hkey]
    exact Labels.push_ofRows m.rows key value

theorem absorb_toLabels (m : OrderedMap) (pairs : List (String × String)) :
    m.toLabels.absorb pairs = (m.insertAll pairs).toLabels := by
  induction pairs generalizing m with
  | nil => rfl
  | cons p pairs ih =>
      rw [Labels.absorb_cons, insertIfNew_toLabels, ih]
      rfl

/-- The row of a key in the one column is the row of its value in the other. -/
theorem set_values {m : OrderedMap} {key : String} {i : Nat} (value : String)
    (h : m.toLabels.row? key = some i) :
    m.toLabels.values.set i value = (m.replace key value).toLabels.values := by
  apply List.ext_getElem
  · simp [toLabels, Labels.ofRows, replace, revalue]
  · intro j hj hj'
    have hlength : j < m.rows.length := by
      simpa [toLabels, Labels.ofRows] using hj
    have hrow : i = j ↔ (m.rows[j]).1 = key := by
      rw [← Option.some_inj, ← h, Labels.row?_eq_some_iff m.toLabels_wellFormed]
      simp [toLabels, Labels.ofRows, List.getElem?_eq_getElem hlength]
    rw [List.getElem_set]
    simp only [toLabels, Labels.ofRows, replace, revalue, List.getElem_map, hrow]
    split <;> rfl

theorem put_toLabels (m : OrderedMap) (key value : String) (replacing : Bool) :
    m.toLabels.put key value replacing =
      (if replacing then m.assign key value else m.insertIfNew key value).toLabels := by
  rw [Labels.put, assign, insertIfNew]
  cases hrow : m.toLabels.row? key with
  | none =>
      have hkey : key ∉ m.keys := by
        rwa [row?_toLabels, List.idxOf?_eq_none_iff] at hrow
      rw [dif_neg hkey, dif_neg hkey, ite_self]
      exact Labels.push_ofRows m.rows key value
  | some i =>
      have hkey : key ∈ m.keys := by
        rw [← List.isSome_idxOf?, ← row?_toLabels, hrow]
        rfl
      rw [dif_pos hkey, dif_pos hkey]
      cases replacing with
      | false => rfl
      | true =>
          have hkeys : m.toLabels.keys = (m.replace key value).toLabels.keys :=
            (map_fst_revalue key value m.rows).symm
          simp only [if_true]
          rw [set_values value hrow, hkeys]

theorem putAll_toLabels_replacing (m : OrderedMap) (pairs : List (String × String)) :
    m.toLabels.putAll pairs true = (m.assignAll pairs).toLabels := by
  induction pairs generalizing m with
  | nil => rfl
  | cons p pairs ih =>
      rw [Labels.putAll, List.foldl_cons, put_toLabels]
      exact ih (m.assign p.1 p.2)

theorem putAll_toLabels_keeping (m : OrderedMap) (pairs : List (String × String)) :
    m.toLabels.putAll pairs false = (m.insertAll pairs).toLabels := by
  induction pairs generalizing m with
  | nil => rfl
  | cons p pairs ih =>
      rw [Labels.putAll, List.foldl_cons, put_toLabels]
      exact ih (m.insertIfNew p.1 p.2)

/-! ## Keys stay where they are -/

theorem keys_insertIfNew (m : OrderedMap) (key value : String) :
    (m.insertIfNew key value).keys = if key ∈ m.keys then m.keys else m.keys ++ [key] := by
  rw [insertIfNew]
  by_cases hkey : key ∈ m.keys
  · rw [dif_pos hkey, if_pos hkey]
  · rw [dif_neg hkey, if_neg hkey]
    exact List.map_append

theorem keys_assign (m : OrderedMap) (key value : String) :
    (m.assign key value).keys = if key ∈ m.keys then m.keys else m.keys ++ [key] := by
  rw [assign]
  by_cases hkey : key ∈ m.keys
  · rw [dif_pos hkey, if_pos hkey]
    exact map_fst_revalue key value m.rows
  · rw [dif_neg hkey, if_neg hkey]
    exact List.map_append

theorem keys_prefix_insertIfNew (m : OrderedMap) (key value : String) :
    m.keys <+: (m.insertIfNew key value).keys := by
  rw [keys_insertIfNew]
  split
  · exact List.prefix_refl _
  · exact List.prefix_append _ _

theorem keys_prefix_assign (m : OrderedMap) (key value : String) :
    m.keys <+: (m.assign key value).keys := by
  rw [keys_assign, ← keys_insertIfNew m key value]
  exact m.keys_prefix_insertIfNew key value

theorem keys_prefix_insertAll (m : OrderedMap) (pairs : List (String × String)) :
    m.keys <+: (m.insertAll pairs).keys := by
  induction pairs generalizing m with
  | nil => exact List.prefix_refl _
  | cons p pairs ih => exact (m.keys_prefix_insertIfNew p.1 p.2).trans (ih _)

/-- Maps with the same keys have the same keys after the same pairs, whether values are
replaced or kept. -/
theorem keys_assignAll {m m' : OrderedMap} (h : m.keys = m'.keys)
    (pairs : List (String × String)) : (m.assignAll pairs).keys = (m'.insertAll pairs).keys := by
  induction pairs generalizing m m' with
  | nil => exact h
  | cons p pairs ih =>
      refine ih ?_
      rw [keys_assign, keys_insertIfNew, h]

/-! ## Values -/

theorem find?_replace_self {m : OrderedMap} {key : String} (value : String)
    (h : key ∈ m.keys) : (m.replace key value).find? key = some value := by
  obtain ⟨r, hr, hkey⟩ := List.mem_map.mp h
  refine (lookup_eq_some_iff_mem (m.replace key value).nodup).mpr ?_
  exact List.mem_map.mpr ⟨r, hr, if_pos hkey⟩

/-- The other keys keep their values. -/
theorem find?_replace_of_ne (m : OrderedMap) {key k : String} (value : String) (h : k ≠ key) :
    (m.replace key value).find? k = m.find? k := by
  apply Option.ext
  intro v
  rw [find?, find?, lookup_eq_some_iff_mem (m.replace key value).nodup,
    lookup_eq_some_iff_mem m.nodup, rows_replace, revalue, List.mem_map]
  constructor
  · rintro ⟨r, hr, heq⟩
    by_cases hkey : r.1 = key
    · rw [if_pos hkey] at heq
      exact absurd (congrArg Prod.fst heq).symm h
    · rw [if_neg hkey] at heq
      exact heq ▸ hr
  · intro hmem
    exact ⟨(k, v), hmem, if_neg h⟩

theorem find?_assign (m : OrderedMap) (key value k : String) :
    (m.assign key value).find? k = ([(key, value)].lookup k).or (m.find? k) := by
  rw [assign, lookup_singleton]
  by_cases hkey : key ∈ m.keys
  · rw [dif_pos hkey]
    by_cases hk : k = key
    · rw [if_pos hk, hk]
      exact find?_replace_self value hkey
    · rw [if_neg hk]
      exact m.find?_replace_of_ne value hk
  · rw [dif_neg hkey, find?, append, List.lookup_append, lookup_singleton]
    by_cases hk : k = key
    · rw [if_pos hk, hk, lookup_eq_none_iff_not_mem.mpr hkey]
      rfl
    · rw [if_neg hk]
      exact Option.or_none

/-- Of assigned pairs the last counts. -/
theorem find?_assignAll (m : OrderedMap) (pairs : List (String × String)) (k : String) :
    (m.assignAll pairs).find? k = (pairs.reverse.lookup k).or (m.find? k) := by
  induction pairs generalizing m with
  | nil => rfl
  | cons p pairs ih =>
      rw [List.reverse_cons, List.lookup_append, Option.or_assoc, ← find?_assign, ← ih]
      rfl

/-! ## Requests to labels and to maps -/

/-- A map after a request that is made to labels. -/
def perform (m : OrderedMap) : Labels.Request → OrderedMap
  | .insertIfNew key value => m.insertIfNew key value
  | .put key value true => m.assign key value
  | .put key value false => m.insertIfNew key value
  | .absorbPayload payload => m.insertAll ((Payload.labels payload).toOption.getD [])

/-- A map after requests that are made to labels. -/
def performAll (m : OrderedMap) (requests : List Labels.Request) : OrderedMap :=
  requests.foldl perform m

theorem perform_toLabels (m : OrderedMap) (r : Labels.Request) :
    m.toLabels.perform r = (m.perform r).toLabels := by
  cases r with
  | insertIfNew key value => exact m.insertIfNew_toLabels key value
  | put key value replacing =>
      cases replacing with
      | true => exact m.put_toLabels key value true
      | false => exact m.put_toLabels key value false
  | absorbPayload payload =>
      exact (Labels.value_absorbPayload _ payload).trans (m.absorb_toLabels _)

theorem performAll_toLabels (m : OrderedMap) (requests : List Labels.Request) :
    m.toLabels.performAll requests = (m.performAll requests).toLabels := by
  induction requests generalizing m with
  | nil => rfl
  | cons r requests ih =>
      rw [Labels.performAll, List.foldl_cons, perform_toLabels]
      exact ih (m.perform r)

theorem keys_prefix_perform (m : OrderedMap) (r : Labels.Request) :
    m.keys <+: (m.perform r).keys := by
  cases r with
  | insertIfNew key value => exact m.keys_prefix_insertIfNew key value
  | put key value replacing =>
      cases replacing with
      | true => exact m.keys_prefix_assign key value
      | false => exact m.keys_prefix_insertIfNew key value
  | absorbPayload payload => exact m.keys_prefix_insertAll _

theorem keys_prefix_performAll (m : OrderedMap) (requests : List Labels.Request) :
    m.keys <+: (m.performAll requests).keys := by
  induction requests generalizing m with
  | nil => exact List.prefix_refl _
  | cons r requests ih => exact (m.keys_prefix_perform r).trans (ih (m.perform r))

end OrderedMap

namespace Labels

/-! ## Origins -/

/-- How a set of labels comes to be. -/
inductive Origin where
  /-- Without labels, with room for any number of them. -/
  | empty
  | ofList (pairs : List (String × String))
  /-- As the labels of a sample. -/
  | join (p : LabelPolicy) (unit : String) (metric resource : SortedLabels)
      (payload : List UInt8)

namespace Origin

/-- The labels at the start. -/
def labels : Origin → Labels
  | .empty => .empty
  | .ofList pairs => .ofList pairs
  | .join p unit metric resource payload => (p.join unit metric resource payload).value

/-- The map at the start. -/
def map : Origin → OrderedMap
  | .empty => .empty
  | .ofList pairs => OrderedMap.empty.insertAll pairs
  | .join p unit metric resource payload =>
      OrderedMap.empty.insertAll (p.sources unit metric resource payload)

theorem labels_eq (o : Origin) : o.labels = o.map.toLabels := by
  cases o with
  | empty => rfl
  | ofList pairs => exact OrderedMap.empty.absorb_toLabels pairs
  | join p unit metric resource payload =>
      exact (p.value_join unit metric resource payload).trans
        (OrderedMap.empty.absorb_toLabels _)

end Origin

/-- Labels and a map give the same answers. -/
structure Agrees (s : Labels) (m : OrderedMap) : Prop where
  keys : s.keys = m.rows.map Prod.fst
  values : s.values = m.rows.map Prod.snd
  length_eq : s.keys.length = s.values.length
  nodup : s.keys.Nodup
  toList : s.toList = m.rows
  size : s.size = m.rows.length
  isEmpty : s.isEmpty = m.rows.isEmpty
  row? : ∀ key, s.row? key = m.keys.idxOf? key
  contains : ∀ key, s.contains key = (m.find? key).isSome
  get? : ∀ key, s.get? key = m.find? key
  /-- To add a label succeeds exactly when its key is absent. -/
  insertNew? : ∀ key value, s.insertNew? key value =
    if key ∈ m.keys then none else some (m.insertIfNew key value).toLabels

theorem agrees_toLabels (m : OrderedMap) : Agrees m.toLabels m where
  keys := rfl
  values := rfl
  length_eq := m.toLabels_wellFormed.length_eq.symm
  nodup := m.nodup
  toList := toList_ofRows m.rows
  size := List.length_map _
  isEmpty := List.isEmpty_map
  row? := m.row?_toLabels
  contains := m.contains_toLabels
  get? := m.get?_toLabels
  insertNew? := by
    intro key value
    by_cases hkey : key ∈ m.keys
    · rw [if_pos hkey, Labels.insertNew?, if_pos (contains_iff.mpr hkey)]
    · have hpush := insertIfNew_of_not_mem value (s := m.toLabels) hkey
      rw [m.insertIfNew_toLabels] at hpush
      rw [if_neg hkey, Labels.insertNew?, if_neg (mt contains_iff.mp hkey), hpush]

/-- Labels are an ordered map, whatever they come from and are asked to do. -/
structure Refinement (o : Origin) (requests : List Request) : Prop where
  agrees : Agrees (o.labels.performAll requests) (o.map.performAll requests)
  /-- A key keeps its row, whatever comes after. -/
  row?_stable : ∀ more key i, (o.labels.performAll requests).row? key = some i →
    (o.labels.performAll (requests ++ more)).row? key = some i

/-- What a list of pairs leaves in a set without labels: the keys in the order in which they
first occur, with their last values if values are replaced, and else with their first. -/
structure FoldLaw (pairs : List (String × String)) : Prop where
  keys_replacing : (empty.putAll pairs true).keys = (firsts pairs).map Prod.fst
  get?_replacing : ∀ key, (empty.putAll pairs true).get? key = pairs.reverse.lookup key
  keys_keeping : (empty.putAll pairs false).keys = (firsts pairs).map Prod.fst
  get?_keeping : ∀ key, (empty.putAll pairs false).get? key = pairs.lookup key
  keeping_eq : empty.putAll pairs false = ofList pairs

theorem foldLaw (pairs : List (String × String)) : FoldLaw pairs := by
  have hreplacing := OrderedMap.empty.putAll_toLabels_replacing pairs
  have hofList := OrderedMap.empty.absorb_toLabels pairs
  have hkeeping : empty.putAll pairs false = ofList pairs :=
    (OrderedMap.empty.putAll_toLabels_keeping pairs).trans hofList.symm
  constructor
  case keys_replacing =>
    calc (empty.putAll pairs true).keys
        = (OrderedMap.empty.assignAll pairs).keys := congrArg keys hreplacing
      _ = (OrderedMap.empty.insertAll pairs).keys := OrderedMap.keys_assignAll rfl pairs
      _ = (ofList pairs).keys := congrArg keys hofList.symm
      _ = (firsts pairs).map Prod.fst := by rw [ofList_eq_ofRows, keys_ofRows]
  case get?_replacing =>
    intro key
    have hget := (OrderedMap.empty.assignAll pairs).get?_toLabels key
    rw [← hreplacing, OrderedMap.find?_assignAll] at hget
    exact hget.trans Option.or_none
  case keys_keeping => rw [hkeeping, ofList_eq_ofRows, keys_ofRows]
  case get?_keeping =>
    intro key
    rw [hkeeping, get?_ofList]
  case keeping_eq => exact hkeeping

/-- Whatever labels come from and are asked to do, they are an ordered map. -/
theorem refines_orderedMap (o : Origin) (requests : List Request)
    (pairs : List (String × String)) : Refinement o requests ∧ FoldLaw pairs := by
  refine ⟨⟨?agrees, ?row?_stable⟩, foldLaw pairs⟩
  case agrees =>
    rw [o.labels_eq, OrderedMap.performAll_toLabels]
    exact agrees_toLabels _
  case row?_stable =>
    intro more key i h
    rw [o.labels_eq, OrderedMap.performAll_toLabels] at h ⊢
    rw [OrderedMap.performAll, List.foldl_append]
    exact (OrderedMap.keys_prefix_performAll _ more).findIdx?_eq_some h

end Labels

end Scrape
