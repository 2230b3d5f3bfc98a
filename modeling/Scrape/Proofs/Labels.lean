/-
Labels as maps, and in the order of their keys.

Two columns are a map from keys to values when they are equally long and no key
is repeated; then the rows are the entries of the map (`get?_eq_some_iff`) and
sets that are equal as maps differ in the order of their rows only
(`toList_perm_iff`).  To sort the rows by key removes that difference too: among
rows with distinct keys the bytes of the keys decide every comparison, so there
is one sorted order, whatever order the rows came in.

Absorbed pairs go behind the rows that are there, one for each key that is new
(`absorb_eq_append`); so the set of a list of pairs has as its rows the first pair
of each key.
-/
import Scrape.Labels
import Scrape.Utf8
import Mathlib.Data.List.Nodup

namespace Scrape

/-! ## The order of texts -/

namespace Utf8

theorem le_iff {s t : String} : le s t = true ↔ encode s ≤ encode t := by
  rw [le, Bool.not_eq_true', decide_eq_false_iff_not]
  exact List.not_lt

theorem le_trans {s t u : String} (h : le s t = true) (h' : le t u = true) : le s u = true :=
  le_iff.mpr (List.le_trans (le_iff.mp h) (le_iff.mp h'))

theorem le_total (s t : String) : (le s t || le t s) = true := by
  rw [Bool.or_eq_true, le_iff, le_iff]
  exact List.le_total (encode s) (encode t)

theorem le_antisymm {s t : String} (h : le s t = true) (h' : le t s = true) : s = t :=
  encode_inj.mp (List.le_antisymm (le_iff.mp h) (le_iff.mp h'))

end Utf8

namespace Labels

/-! ## Rows in the order of their keys -/

/-- Pairs sorted by their keys; equal keys keep the order of their pairs. -/
def sorted (pairs : List (String × String)) : List (String × String) :=
  pairs.mergeSort fun p q => Utf8.le p.1 q.1

theorem sorted_perm (pairs : List (String × String)) : (sorted pairs).Perm pairs :=
  List.mergeSort_perm _ _

theorem sorted_pairwise (pairs : List (String × String)) :
    (sorted pairs).Pairwise fun p q => Utf8.le p.1 q.1 = true := by
  apply List.pairwise_mergeSort
  · intro p q r
    exact Utf8.le_trans
  · intro p q
    exact Utf8.le_total p.1 q.1

/-- The sorted order of pairs with distinct keys does not depend on the order in
which they are given. -/
theorem sorted_eq_of_perm {pairs pairs' : List (String × String)}
    (hn : (pairs.map Prod.fst).Nodup) (h : pairs.Perm pairs') : sorted pairs = sorted pairs' := by
  have hperm : (sorted pairs).Perm (sorted pairs') :=
    (sorted_perm pairs).trans (h.trans (sorted_perm pairs').symm)
  refine hperm.eq_of_pairwise ?_ (sorted_pairwise pairs) (sorted_pairwise pairs')
  intro p q hp hq hle hge
  have hp' : p ∈ pairs := (sorted_perm pairs).mem_iff.mp hp
  have hq' : q ∈ pairs := h.mem_iff.mpr ((sorted_perm pairs').mem_iff.mp hq)
  exact List.inj_on_of_nodup_map hn hp' hq' (Utf8.le_antisymm hle hge)

/-! ## Columns that are a map -/

/-- No key is repeated, and every key has its value. -/
structure WellFormed (s : Labels) : Prop where
  nodup : s.keys.Nodup
  length_eq : s.values.length = s.keys.length

theorem empty_wellFormed : empty.WellFormed :=
  ⟨List.nodup_nil, rfl⟩

namespace WellFormed

variable {s : Labels}

theorem push (h : s.WellFormed) {key : String} (value : String) (hkey : key ∉ s.keys) :
    (s.push key value).WellFormed where
  nodup := by
    refine List.nodup_append.mpr ⟨h.nodup, List.nodup_singleton key, ?_⟩
    rintro k hk _ hkey' rfl
    exact hkey (List.mem_singleton.mp hkey' ▸ hk)
  length_eq := by
    simp only [Labels.push, List.length_append, h.length_eq]
    rfl

theorem insertIfNew (h : s.WellFormed) (key value : String) :
    (s.insertIfNew key value).WellFormed := by
  by_cases hkey : key ∈ s.keys
  · rwa [insertIfNew_of_mem value hkey]
  · rw [insertIfNew_of_not_mem value hkey]
    exact h.push value hkey

theorem absorb (h : s.WellFormed) (pairs : List (String × String)) :
    (s.absorb pairs).WellFormed := by
  induction pairs generalizing s with
  | nil => exact h
  | cons p pairs ih => exact ih (h.insertIfNew p.1 p.2)

end WellFormed

theorem ofList_wellFormed (pairs : List (String × String)) : (ofList pairs).WellFormed :=
  empty_wellFormed.absorb pairs

theorem WellFormed.map_fst_toList {s : Labels} (h : s.WellFormed) :
    s.toList.map Prod.fst = s.keys :=
  List.map_fst_zip (Nat.le_of_eq h.length_eq.symm)

theorem row?_eq_some_iff {s : Labels} (h : s.WellFormed) {key : String} {i : Nat} :
    s.row? key = some i ↔ s.keys[i]? = some key := by
  rw [row?, List.findIdx?_eq_some_iff_getElem, List.getElem?_eq_some_iff]
  constructor
  · rintro ⟨hi, hkey, -⟩
    exact ⟨hi, eq_of_beq hkey⟩
  · rintro ⟨hi, rfl⟩
    refine ⟨hi, beq_self_eq_true _, ?_⟩
    intro j hj hkey
    -- an earlier row with this key would be a second one
    have hij : j = i := h.nodup.getElem_inj_iff.mp (eq_of_beq hkey)
    exact absurd hij (Nat.ne_of_lt hj)

/-- The rows of a map are its entries. -/
theorem get?_eq_some_iff {s : Labels} (h : s.WellFormed) {key value : String} :
    s.get? key = some value ↔ (key, value) ∈ s.toList := by
  rw [get?, Option.bind_eq_some_iff, toList, List.mem_iff_getElem?]
  constructor
  · rintro ⟨i, hi, hvalue⟩
    exact ⟨i, List.getElem?_zip_eq_some.mpr ⟨(row?_eq_some_iff h).mp hi, hvalue⟩⟩
  · rintro ⟨i, hi⟩
    obtain ⟨hkey, hvalue⟩ := List.getElem?_zip_eq_some.mp hi
    exact ⟨i, (row?_eq_some_iff h).mpr hkey, hvalue⟩

theorem WellFormed.nodup_toList {s : Labels} (h : s.WellFormed) : s.toList.Nodup :=
  List.Nodup.of_map Prod.fst (by rw [h.map_fst_toList]; exact h.nodup)

/-- Sets are equal as maps when they have the same rows, in any order. -/
theorem toList_perm_iff {s s' : Labels} (h : s.WellFormed) (h' : s'.WellFormed) :
    s.toList.Perm s'.toList ↔ ∀ key, s.get? key = s'.get? key := by
  rw [List.perm_ext_iff_of_nodup h.nodup_toList h'.nodup_toList]
  constructor
  · intro hmem key
    apply Option.ext
    intro value
    rw [get?_eq_some_iff h, get?_eq_some_iff h']
    exact hmem (key, value)
  · rintro hget ⟨key, value⟩
    rw [← get?_eq_some_iff h, ← get?_eq_some_iff h', hget]

/-- Sets have the same sorted rows exactly when they are equal as maps. -/
theorem sorted_toList_eq_iff {s s' : Labels} (h : s.WellFormed) (h' : s'.WellFormed) :
    sorted s.toList = sorted s'.toList ↔ ∀ key, s.get? key = s'.get? key := by
  rw [← toList_perm_iff h h']
  constructor
  · intro heq
    exact (sorted_perm s.toList).symm.trans (heq ▸ sorted_perm s'.toList)
  · intro hperm
    refine sorted_eq_of_perm ?_ hperm
    rw [h.map_fst_toList]
    exact h.nodup

/-! ## The first pair of each key -/

/-- The set whose rows are the given ones. -/
def ofRows (rows : List (String × String)) : Labels :=
  ⟨rows.map Prod.fst, rows.map Prod.snd⟩

@[simp] theorem keys_ofRows (rows : List (String × String)) :
    (ofRows rows).keys = rows.map Prod.fst := rfl

theorem toList_ofRows (rows : List (String × String)) : (ofRows rows).toList = rows :=
  (List.zip_of_prod rfl rfl).symm

theorem push_ofRows (rows : List (String × String)) (key value : String) :
    (ofRows rows).push key value = ofRows (rows ++ [(key, value)]) := by
  simp only [push, ofRows, List.map_append, List.map_cons, List.map_nil]

/-- The pairs whose key no earlier pair has, in their order. -/
def firsts (pairs : List (String × String)) : List (String × String) :=
  pairs.eraseDupsBy fun p q => p.1 == q.1

theorem firsts_cons (p : String × String) (pairs : List (String × String)) :
    firsts (p :: pairs) = p :: firsts (pairs.filter fun q => q.1 ≠ p.1) := by
  rw [firsts, List.eraseDupsBy_cons, firsts]
  simp only [beq_eq_false_iff_ne]

theorem firsts_of_nodup {pairs : List (String × String)} (h : (pairs.map Prod.fst).Nodup) :
    firsts pairs = pairs := by
  induction pairs with
  | nil => rfl
  | cons p pairs ih =>
      obtain ⟨hnew, hrest⟩ := List.nodup_cons.mp h
      have hkeep : (pairs.filter fun q => q.1 ≠ p.1) = pairs := by
        refine List.filter_eq_self.mpr fun q hq => decide_eq_true ?_
        rintro heq
        exact hnew (heq ▸ List.mem_map_of_mem hq)
      rw [firsts_cons, hkeep, ih hrest]

/-- Rows put behind those that are there. -/
def append (s : Labels) (rows : List (String × String)) : Labels :=
  ⟨s.keys ++ rows.map Prod.fst, s.values ++ rows.map Prod.snd⟩

theorem append_nil (s : Labels) : s.append [] = s := by
  simp only [append, List.map_nil, List.append_nil]

theorem push_append (s : Labels) (p : String × String) (rows : List (String × String)) :
    (s.push p.1 p.2).append rows = s.append (p :: rows) := by
  simp only [append, push, List.append_assoc, List.map_cons, List.singleton_append]

/-- What is absorbed goes behind the rows that are there: of the pairs whose key is not among
theirs, the first of each key. -/
theorem absorb_eq_append (s : Labels) (pairs : List (String × String)) :
    s.absorb pairs = s.append (firsts (pairs.filter fun p => p.1 ∉ s.keys)) := by
  induction pairs generalizing s with
  | nil => exact s.append_nil.symm
  | cons p pairs ih =>
      rw [absorb_cons]
      by_cases hp : p.1 ∈ s.keys
      · rw [insertIfNew_of_mem p.2 hp, ih, List.filter_cons_of_neg (by simpa using hp)]
      · have hrest : (pairs.filter fun q => q.1 ∉ (s.push p.1 p.2).keys) =
            (pairs.filter fun q => q.1 ∉ s.keys).filter fun q => q.1 ≠ p.1 := by
          rw [List.filter_filter]
          refine List.filter_congr fun q _ => ?_
          rw [push, Bool.eq_iff_iff]
          simp [or_comm]
        rw [insertIfNew_of_not_mem p.2 hp, ih, push_append, hrest,
          List.filter_cons_of_pos (by simpa using hp), firsts_cons]

/-- The set of a list of pairs has the first pair of each key. -/
theorem ofList_eq_ofRows (pairs : List (String × String)) :
    ofList pairs = ofRows (firsts pairs) := by
  have hnew : (pairs.filter fun p => p.1 ∉ empty.keys) = pairs :=
    List.filter_eq_self.mpr fun p _ => decide_eq_true List.not_mem_nil
  rw [ofList, absorb_eq_append, hnew]
  rfl

end Labels

end Scrape
