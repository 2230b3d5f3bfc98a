/-
The bytes behind a fingerprint.

A fingerprint is the hash of one run of bytes, its `encoding`: the field of the
name, two fields for each label in the order of the keys, and the eight bytes of
the time.  A hash may collide; the encoding does not.  A field is a text and the
byte `0xFF`, which no text contains, so the first `0xFF` is the end of the first
field, and fields can be read off one after another.  The time comes last and
has no end of its own.  Its bytes may well be `0xFF`; but there are eight of
them or none, and between encodings that both have a time or both have none the
bytes in front are therefore told from the bytes of the time by counting from
the end.

What is read off is a name, the labels in their sorted order and the word of the
time.  The sorted order stands for the map (`Labels.sorted_toList_eq_iff`) and
the word for the instant where it fits (`Instant.stamp_inj`).
-/
import Scrape.Fingerprint
import Scrape.Proofs.Instant
import Scrape.Proofs.Labels
import Scrape.Utf8.Lemmas
import Mathlib.Data.List.Basic

namespace Scrape

/-! ## Words -/

/-- A word is determined by its eight bytes. -/
theorem Fnv.wordBytes_inj {w w' : UInt64} (h : wordBytes w = wordBytes w') : w = w' := by
  apply UInt64.toNat_inj.mp
  have hw := w.toNat_lt
  have hw' := w'.toNat_lt
  -- the bytes are the digits of the word to base 256
  simp only [wordBytes, List.cons.injEq, ← UInt8.toNat_inj, UInt64.toNat_toUInt8,
    UInt64.toNat_shiftRight, UInt64.reduceToNat, Nat.reduceMod, Nat.shiftRight_eq_div_pow,
    Nat.reducePow, and_true] at h
  omega

namespace Fingerprint

/-! ## The encoding -/

/-- A text and the end of its field. -/
def field (s : String) : List UInt8 :=
  Utf8.encode s ++ [Fnv.separator]

/-- The labels of two columns.  A key in a row beyond the values has an empty
value. -/
def pairs (keys values : List String) : List (String × String) :=
  keys.zipIdx.map fun row => (row.1, values[row.2]?.getD "")

/-- The fields of labels, key before value. -/
def labelBytes (labels : List (String × String)) : List UInt8 :=
  labels.flatMap fun p => field p.1 ++ field p.2

/-- The bytes of a time, if there is one. -/
def timeBytes : Option Instant → List UInt8
  | some t => Fnv.wordBytes t.stamp.toUInt64
  | none => []

/-- The bytes that the fingerprint of a name, labels in two columns and a time is
the hash of. -/
def encoding (name : String) (keys values : List String) (time : Option Instant) :
    List UInt8 :=
  field name ++ labelBytes (Labels.sorted (pairs keys values)) ++ timeBytes time

theorem foldField_eq (h : UInt64) (s : String) : foldField h s = Fnv.fold h (field s) := by
  rw [field, Fnv.fold_append]
  rfl

theorem foldRow_eq (values : List String) (h : UInt64) (row : String × Nat) :
    foldRow values h row = Fnv.fold h (field row.1 ++ field (values[row.2]?.getD "")) := by
  rw [Fnv.fold_append, ← foldField_eq, ← foldField_eq, foldRow]
  cases values[row.2]? with
  | some value => rfl
  | none => rfl

theorem foldl_foldRow_eq (values : List String) (rows : List (String × Nat)) (h : UInt64) :
    rows.foldl (foldRow values) h =
      Fnv.fold h (labelBytes (rows.map fun row => (row.1, values[row.2]?.getD ""))) := by
  induction rows generalizing h with
  | nil => rfl
  | cons row rows ih =>
      rw [List.foldl_cons, ih, foldRow_eq, ← Fnv.fold_append]
      rfl

theorem foldTime_eq (h : UInt64) (time : Option Instant) :
    foldTime h time = Fnv.fold h (timeBytes time) := by
  cases time with
  | none => rfl
  | some t => rfl

/-- To sort the rows is to sort the labels in them. -/
theorem map_rows (keys values : List String) :
    (rows keys).map (fun row => (row.1, values[row.2]?.getD "")) =
      Labels.sorted (pairs keys values) :=
  List.map_mergeSort fun _ _ _ _ => rfl

/-- A fingerprint is the hash of the encoding and of nothing else. -/
theorem of_eq_hash (name : String) (keys values : List String) (time : Option Instant) :
    of name keys values time = Fnv.hash (encoding name keys values time) := by
  rw [of, foldTime_eq, foldl_foldRow_eq, foldField_eq, map_rows, ← Fnv.fold_append,
    ← Fnv.fold_append, ← List.append_assoc]
  rfl

/-! ## Fields are read off one after another -/

theorem separator_not_mem_encode (s : String) : Fnv.separator ∉ Utf8.encode s := by
  intro h
  exact absurd (Utf8.toNat_lt_of_mem_encode h) (by decide)

/-- The first separator ends the first field. -/
theorem field_append_inj {s t : String} {p q : List UInt8}
    (h : field s ++ p = field t ++ q) : s = t ∧ p = q := by
  simp only [field, List.append_assoc, List.singleton_append] at h
  obtain ⟨c, ht, h⟩ | ⟨c, hs, h⟩ := List.append_eq_append_iff.mp h
  · cases c with
    | nil =>
        rw [List.append_nil] at ht
        exact ⟨Utf8.encode_inj.mp ht.symm, (List.cons.inj h).2⟩
    | cons b c =>
        -- else the text of the second field would go on beyond a separator
        obtain ⟨rfl, -⟩ := List.cons.inj h
        exact absurd (ht ▸ List.mem_append_right _ List.mem_cons_self)
          (separator_not_mem_encode t)
  · cases c with
    | nil =>
        rw [List.append_nil] at hs
        exact ⟨Utf8.encode_inj.mp hs, (List.cons.inj h).2.symm⟩
    | cons b c =>
        obtain ⟨rfl, -⟩ := List.cons.inj h
        exact absurd (hs ▸ List.mem_append_right _ List.mem_cons_self)
          (separator_not_mem_encode s)

theorem field_append_ne_nil (s : String) (p : List UInt8) : field s ++ p ≠ [] := by
  simp [field]

theorem labelBytes_cons (p : String × String) (labels : List (String × String)) :
    labelBytes (p :: labels) = field p.1 ++ (field p.2 ++ labelBytes labels) := by
  rw [labelBytes, List.flatMap_cons, List.append_assoc]
  rfl

theorem labelBytes_append (labels more : List (String × String)) :
    labelBytes (labels ++ more) = labelBytes labels ++ labelBytes more :=
  List.flatMap_append

/-- The fields of labels are told from what follows them: whatever has the same bytes
as other labels is made of fields itself. -/
theorem labelBytes_append_eq_iff {labels labels' : List (String × String)} {rest : List UInt8} :
    labelBytes labels ++ rest = labelBytes labels' ↔
      ∃ more, labelBytes more = rest ∧ labels' = labels ++ more := by
  constructor
  · intro h
    induction labels generalizing labels' with
    | nil => exact ⟨labels', h.symm, rfl⟩
    | cons p labels ih =>
        rw [labelBytes_cons, List.append_assoc, List.append_assoc] at h
        cases labels' with
        | nil => exact absurd h (field_append_ne_nil _ _)
        | cons q labels' =>
            rw [labelBytes_cons] at h
            obtain ⟨hkey, h⟩ := field_append_inj h
            obtain ⟨hvalue, h⟩ := field_append_inj h
            obtain ⟨more, hrest, rfl⟩ := ih h
            exact ⟨more, hrest, by rw [Prod.ext hkey hvalue, List.cons_append]⟩
  · rintro ⟨more, rfl, rfl⟩
    exact (labelBytes_append labels more).symm

theorem labelBytes_inj {labels labels' : List (String × String)}
    (h : labelBytes labels = labelBytes labels') : labels = labels' := by
  rw [← List.append_nil (labelBytes labels)] at h
  obtain ⟨more, hmore, rfl⟩ := labelBytes_append_eq_iff.mp h
  cases more with
  | nil => exact (List.append_nil labels).symm
  | cons p more =>
      rw [labelBytes_cons] at hmore
      exact absurd hmore (field_append_ne_nil _ _)

/-! ## What an encoding stands for -/

theorem pairs_eq_toList {s : Labels} (h : s.WellFormed) : pairs s.keys s.values = s.toList := by
  apply List.ext_getElem
  · simp [pairs, Labels.toList, h.length_eq]
  · intro i hi hi'
    have hvalue : i < s.values.length := by
      rw [h.length_eq]
      simpa [pairs] using hi
    simp [pairs, Labels.toList, hvalue]

theorem timeBytes_inj {time time' : Option Instant} (hkind : time.isSome = time'.isSome)
    (hfits : ∀ t ∈ time, t.Fits) (hfits' : ∀ t ∈ time', t.Fits)
    (h : timeBytes time = timeBytes time') : time = time' := by
  cases time with
  | none =>
      cases time' with
      | none => rfl
      | some t' => cases hkind
  | some t =>
      cases time' with
      | none => cases hkind
      | some t' =>
          have hword := Fnv.wordBytes_inj h
          rw [Instant.stamp_inj (hfits t rfl) (hfits' t' rfl) (congrArg Int64.ofUInt64 hword)]

theorem length_timeBytes {time time' : Option Instant} (h : time.isSome = time'.isSome) :
    (timeBytes time).length = (timeBytes time').length := by
  cases time with
  | none =>
      cases time' with
      | none => rfl
      | some t' => cases h
  | some t =>
      cases time' with
      | none => cases h
      | some t' => rfl

/-- Labels that are one map have one fingerprint, and times count as far as their
stamps do. -/
theorem of_eq_of {name : String} {s s' : Labels} {time time' : Option Instant}
    (hs : s.WellFormed) (hs' : s'.WellFormed) (hlabels : ∀ key, s.get? key = s'.get? key)
    (htime : time.map Instant.stamp = time'.map Instant.stamp) :
    of name s.keys s.values time = of name s'.keys s'.values time' := by
  have hbytes : timeBytes time = timeBytes time' := by
    cases time with
    | none =>
        cases time' with
        | none => rfl
        | some t' => exact nomatch htime
    | some t =>
        cases time' with
        | none => exact nomatch htime
        | some t' =>
            rw [Option.map_some, Option.map_some, Option.some.injEq] at htime
            rw [timeBytes, timeBytes, htime]
  rw [of_eq_hash, of_eq_hash, encoding, encoding, pairs_eq_toList hs, pairs_eq_toList hs',
    (Labels.sorted_toList_eq_iff hs hs').mpr hlabels, hbytes]

/-- A fingerprint is the hash of its encoding, and encodings are the same exactly
when names, labels as maps, and times are: no field runs into the next one, and
the order in which labels are given leaves no trace. -/
theorem encoding_eq_iff {name name' : String} {s s' : Labels} {time time' : Option Instant}
    (hs : s.WellFormed) (hs' : s'.WellFormed) (hkind : time.isSome = time'.isSome)
    (hfits : ∀ t ∈ time, t.Fits) (hfits' : ∀ t ∈ time', t.Fits) :
    of name s.keys s.values time = Fnv.hash (encoding name s.keys s.values time) ∧
    (encoding name s.keys s.values time = encoding name' s'.keys s'.values time' ↔
      name = name' ∧ (∀ key, s.get? key = s'.get? key) ∧ time = time') := by
  refine ⟨of_eq_hash name s.keys s.values time, ?_⟩
  rw [← Labels.sorted_toList_eq_iff hs hs', encoding, encoding, pairs_eq_toList hs,
    pairs_eq_toList hs']
  constructor
  · intro h
    obtain ⟨hfields, htime⟩ := List.append_inj' h (length_timeBytes hkind)
    obtain ⟨hname, hlabels⟩ := field_append_inj hfields
    exact ⟨hname, labelBytes_inj hlabels, timeBytes_inj hkind hfits hfits' htime⟩
  · rintro ⟨rfl, hlabels, rfl⟩
    rw [hlabels]

/-- Two labels in either order have one encoding just before the epoch, and to
move a character from a value to its key gives another one. -/
theorem encoding_eq_iff_just_before_epoch :
    encoding "up" ["b", "a"] ["2", "1"] (some ⟨-1⟩) =
        encoding "up" ["a", "b"] ["1", "2"] (some ⟨-1⟩) ∧
      encoding "up" ["b", "a"] ["2", "1"] (some ⟨-1⟩) ≠
        encoding "up" ["b2", "a"] ["", "1"] (some ⟨-1⟩) := by
  have hfits : ∀ t ∈ some (Instant.mk (-1)), t.Fits := by
    rintro _ ⟨⟩
    exact ⟨by decide, by decide⟩
  have hs : (Labels.mk ["b", "a"] ["2", "1"]).WellFormed := ⟨by decide, rfl⟩
  constructor
  · have hs' : (Labels.mk ["a", "b"] ["1", "2"]).WellFormed := ⟨by decide, rfl⟩
    refine (encoding_eq_iff hs hs' rfl hfits hfits).2.mpr ⟨rfl, ?_, rfl⟩
    exact (Labels.toList_perm_iff hs hs').mp (.swap _ _ _)
  · have hs' : (Labels.mk ["b2", "a"] ["", "1"]).WellFormed := ⟨by decide, rfl⟩
    intro h
    have hget := ((encoding_eq_iff hs hs' rfl hfits hfits).2.mp h).2.1 "b"
    exact absurd hget (by decide)

end Fingerprint

end Scrape
