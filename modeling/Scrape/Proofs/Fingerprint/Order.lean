/-
Labels in another order.

A fingerprint sorts labels by their keys, and the sort is stable: it moves pairs
with different keys only, and two pairs with one key leave it in the order in
which they came.  So what the order of the labels has left in the encoding is
this much, the order of the values of each key (`Labels.sorted_eq_iff`), and
nothing else.

Labels of a sample have each key once, and their order leaves nothing at all.  A
list of pairs that repeats a key does not have that freedom: to exchange two
values of one key gives another encoding, and another fingerprint unless the hash
happens to collide (`exists_of_ne_of_perm`).
-/
import Scrape.Proofs.Fingerprint.Encoding

namespace Scrape

namespace Labels

/-! ## What a stable sort keeps -/

/-- The pairs of one key, in their order. -/
def ofKey (key : String) (pairs : List (String × String)) : List (String × String) :=
  pairs.filter (·.1 = key)

theorem mem_ofKey {key : String} {p : String × String} {pairs : List (String × String)} :
    p ∈ ofKey key pairs ↔ p ∈ pairs ∧ p.1 = key := by
  rw [ofKey, List.mem_filter, decide_eq_true_eq]

theorem ofKey_cons_self (p : String × String) (pairs : List (String × String)) :
    ofKey p.1 (p :: pairs) = p :: ofKey p.1 pairs :=
  List.filter_cons_of_pos (decide_eq_true rfl)

/-- Pairs of one key are in the order of their keys, however they stand. -/
theorem pairwise_of_key {key : String} {pairs : List (String × String)}
    (h : ∀ p ∈ pairs, p.1 = key) : pairs.Pairwise fun p q => Utf8.le p.1 q.1 = true := by
  refine List.pairwise_of_forall_mem_list fun p hp q hq => ?_
  rw [h p hp, h q hq]
  exact Utf8.le_iff.mpr (List.le_refl _)

/-- The pairs of one key pass through the sort as they are. -/
theorem ofKey_sorted (key : String) (pairs : List (String × String)) :
    ofKey key (sorted pairs) = ofKey key pairs := by
  have hsublist : (ofKey key pairs).Sublist (sorted pairs) := by
    apply List.sublist_mergeSort
    · intro p q r
      exact Utf8.le_trans
    · intro p q
      exact Utf8.le_total p.1 q.1
    · exact pairwise_of_key fun p hp => (mem_ofKey.mp hp).2
    · exact List.filter_sublist
  have hkey := hsublist.filter (·.1 = key)
  rw [ofKey, List.filter_filter] at hkey
  simp only [Bool.and_self] at hkey
  exact (hkey.eq_of_length ((sorted_perm pairs).filter _).length_eq.symm).symm

/-- Sorted pairs are told by the pairs of each key. -/
theorem eq_of_ofKey_eq {pairs pairs' : List (String × String)}
    (hs : pairs.Pairwise fun p q => Utf8.le p.1 q.1 = true)
    (hs' : pairs'.Pairwise fun p q => Utf8.le p.1 q.1 = true)
    (h : ∀ key, ofKey key pairs = ofKey key pairs') : pairs = pairs' := by
  induction pairs generalizing pairs' with
  | nil =>
      cases pairs' with
      | nil => rfl
      | cons q pairs' =>
          have hq := h q.1
          rw [ofKey_cons_self] at hq
          exact nomatch hq
  | cons p pairs ih =>
      cases pairs' with
      | nil =>
          have hp := h p.1
          rw [ofKey_cons_self] at hp
          exact nomatch hp
      | cons q pairs' =>
          obtain ⟨hfirst, hrest⟩ := List.pairwise_cons.mp hs
          obtain ⟨hfirst', hrest'⟩ := List.pairwise_cons.mp hs'
          -- each of the two first pairs stands in the other list too, so neither key is the less
          have hp : p ∈ q :: pairs' := by
            have hmem : p ∈ ofKey p.1 (p :: pairs) := mem_ofKey.mpr ⟨List.mem_cons_self, rfl⟩
            rw [h] at hmem
            exact (mem_ofKey.mp hmem).1
          have hq : q ∈ p :: pairs := by
            have hmem : q ∈ ofKey q.1 (q :: pairs') := mem_ofKey.mpr ⟨List.mem_cons_self, rfl⟩
            rw [← h] at hmem
            exact (mem_ofKey.mp hmem).1
          have hkey : p.1 = q.1 := by
            rcases List.mem_cons.mp hp with rfl | hp
            · rfl
            · rcases List.mem_cons.mp hq with rfl | hq
              · rfl
              · exact Utf8.le_antisymm (hfirst q hq) (hfirst' p hp)
          have hhead := h p.1
          rw [ofKey_cons_self, hkey, ofKey_cons_self] at hhead
          obtain ⟨rfl, -⟩ := List.cons.inj hhead
          refine congrArg (p :: ·) (ih hrest hrest' fun key => ?_)
          have hall := h key
          by_cases hp : p.1 = key
          · simpa [ofKey, hp] using hall
          · simpa [ofKey, hp] using hall

/-- To sort pairs keeps the order of the pairs of each key, and no other order. -/
theorem sorted_eq_iff {pairs pairs' : List (String × String)} :
    sorted pairs = sorted pairs' ↔ ∀ key, ofKey key pairs = ofKey key pairs' := by
  constructor
  · intro h key
    rw [← ofKey_sorted key pairs, h, ofKey_sorted]
  · intro h
    refine eq_of_ofKey_eq (sorted_pairwise pairs) (sorted_pairwise pairs') fun key => ?_
    rw [ofKey_sorted, h, ofKey_sorted]

end Labels

namespace Fingerprint

/-! ## Pairs as columns -/

/-- The encoding of a name, labels as pairs and a time. -/
def encodingOf (name : String) (labels : List (String × String)) (time : Option Instant) :
    List UInt8 :=
  encoding name (labels.map Prod.fst) (labels.map Prod.snd) time

/-- The fingerprint of a name, labels as pairs and a time. -/
def ofPairs (name : String) (labels : List (String × String)) (time : Option Instant) : UInt64 :=
  of name (labels.map Prod.fst) (labels.map Prod.snd) time

theorem pairs_columns (labels : List (String × String)) :
    pairs (labels.map Prod.fst) (labels.map Prod.snd) = labels := by
  apply List.ext_getElem
  · simp [pairs]
  · intro i hi hi'
    simp [pairs, hi']

theorem encodingOf_eq_iff (name : String) (time : Option Instant)
    {labels labels' : List (String × String)} :
    encodingOf name labels time = encodingOf name labels' time ↔
      Labels.sorted labels = Labels.sorted labels' := by
  rw [encodingOf, encodingOf, encoding, encoding, pairs_columns, pairs_columns]
  constructor
  · intro h
    obtain ⟨hfields, -⟩ := List.append_inj' h rfl
    exact labelBytes_inj (List.append_cancel_left hfields)
  · intro h
    rw [h]

/-! ## The law of order -/

/-- What the order of labels means to a fingerprint. -/
structure OrderLaw (name : String) (time : Option Instant)
    (labels labels' : List (String × String)) : Prop where
  hashed : ofPairs name labels time = Fnv.hash (encodingOf name labels time)
  hashed' : ofPairs name labels' time = Fnv.hash (encodingOf name labels' time)
  /-- The same bytes are hashed exactly when each key has the same values in the same
  order. -/
  encoding_iff : encodingOf name labels time = encodingOf name labels' time ↔
    ∀ key, Labels.ofKey key labels = Labels.ofKey key labels'
  /-- Such labels are permutations of each other, and have one fingerprint. -/
  perm : (∀ key, Labels.ofKey key labels = Labels.ofKey key labels') → labels.Perm labels'
  tied : (∀ key, Labels.ofKey key labels = Labels.ofKey key labels') →
    ofPairs name labels time = ofPairs name labels' time
  /-- Where no key is repeated, all permutations have one fingerprint. -/
  distinct : (labels.map Prod.fst).Nodup → labels.Perm labels' →
    ofPairs name labels time = ofPairs name labels' time

/-- Labels may be permuted as long as the values of each key keep their order; then
the fingerprint is the same, and otherwise its bytes are not. -/
theorem orderLaw_of_pairs (name : String) (time : Option Instant)
    (labels labels' : List (String × String)) : OrderLaw name time labels labels' := by
  have hashed (labels : List (String × String)) :
      ofPairs name labels time = Fnv.hash (encodingOf name labels time) :=
    of_eq_hash name _ _ time
  have hsorted (h : Labels.sorted labels = Labels.sorted labels') :
      ofPairs name labels time = ofPairs name labels' time := by
    rw [hashed, hashed, (encodingOf_eq_iff name time).mpr h]
  constructor
  case hashed => exact hashed labels
  case hashed' => exact hashed labels'
  case encoding_iff => rw [encodingOf_eq_iff, Labels.sorted_eq_iff]
  case perm =>
    intro h
    have heq := Labels.sorted_eq_iff.mpr h
    exact (Labels.sorted_perm labels).symm.trans (heq ▸ Labels.sorted_perm labels')
  case tied => exact fun h => hsorted (Labels.sorted_eq_iff.mpr h)
  case distinct => exact fun hn h => hsorted (Labels.sorted_eq_of_perm hn h)

/-- To exchange the two values of a repeated key changes the fingerprint. -/
theorem exists_of_ne_of_perm :
    ¬ ∀ (name : String) (time : Option Instant) (labels labels' : List (String × String)),
      labels.Perm labels' → ofPairs name labels time = ofPairs name labels' time := by
  intro h
  have hsame := h "up" none [("zone", "a"), ("zone", "b")] [("zone", "b"), ("zone", "a")]
    (.swap _ _ _)
  -- one key, so both lists are sorted as they are
  have hbytes (value value' : String) :
      ofPairs "up" [("zone", value), ("zone", value')] none =
        Fnv.hash (field "up" ++ labelBytes [("zone", value), ("zone", value')]) := by
    have hkeys : ∀ p ∈ [("zone", value), ("zone", value')], p.1 = "zone" := by simp
    have hsorted : Labels.sorted [("zone", value), ("zone", value')] =
        [("zone", value), ("zone", value')] :=
      List.mergeSort_of_pairwise (Labels.pairwise_of_key hkeys)
    rw [ofPairs, of_eq_hash, encoding, pairs_columns, hsorted, timeBytes.eq_2, List.append_nil]
  rw [hbytes, hbytes] at hsame
  exact absurd hsame (by decide +kernel)

end Fingerprint

end Scrape
