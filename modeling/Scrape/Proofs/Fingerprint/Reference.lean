/-
What a fingerprint is meant to be.

A fingerprint comes about piece by piece.  The rows of the keys are sorted, the
value of each row is looked up in a column that may be too short, and a word is
carried through all of it, to which texts, separators and the bytes of a time are
folded each in their own way.

None of this is in the definition, which has two parts.  One is the published
FNV-1a, on numbers and modulo `2 ^ 64` (`Fnv.digest`).  The other is the message it
is taken of: the name, the labels in one certain order and the time (`message`).
The order is not said by way of a sort but by what is asked of it (`Ordered`), and
only one list of labels answers that.
-/
import Scrape.Proofs.Fingerprint.Order
import Scrape.Proofs.Fnv

namespace Scrape

/-! ## FNV-1a on numbers -/

namespace Fnv

/-- What one byte does to the state. -/
def round (h : Nat) (b : UInt8) : Nat :=
  (h ^^^ b.toNat) * 1099511628211 % 2 ^ 64

/-- The 64 bits of FNV-1a of a message. -/
def digest (message : List UInt8) : Nat :=
  message.foldl round 14695981039346656037

theorem toNat_step (h : UInt64) (b : UInt8) : (step h b).toNat = round h.toNat b := by
  rw [step, UInt64.toNat_mul, UInt64.toNat_xor, UInt8.toNat_toUInt64]
  rfl

theorem toNat_fold (h : UInt64) (message : List UInt8) :
    (fold h message).toNat = message.foldl round h.toNat := by
  induction message generalizing h with
  | nil => rfl
  | cons b message ih => rw [fold_cons, ih, toNat_step, List.foldl_cons]

theorem toNat_hash (message : List UInt8) : (hash message).toNat = digest message :=
  toNat_fold offsetBasis message

example : digest (Utf8.encode "foobar") = 0x85944171F73967E8 := by decide +kernel

end Fnv

namespace Fingerprint

/-! ## The message -/

/-- Labels in the order in which a message has them. -/
structure Ordered (labels ordered : List (String × String)) : Prop where
  /-- No label is lost, and none is made up. -/
  perm : ordered.Perm labels
  /-- The keys ascend, compared byte by byte. -/
  ascending : ordered.Pairwise fun p q => Utf8.encode p.1 ≤ Utf8.encode q.1
  /-- Labels of one key stay in the order in which they were given. -/
  stable : ∀ key, Labels.ofKey key ordered = Labels.ofKey key labels

/-- The nanoseconds of an instant, cut off at the ends of the signed 64 bits and written in
two's complement. -/
def twosComplement (t : Instant) : Nat :=
  (max (-2 ^ 63) (min (2 ^ 63 - 1) t.nanos) % 2 ^ 64).toNat

/-- The message of a name, labels in their order and a time. -/
def message (name : String) (ordered : List (String × String)) (time : Option Instant) :
    List UInt8 :=
  Utf8.encode name ++ [0xFF] ++
    ordered.flatMap (fun p => Utf8.encode p.1 ++ [0xFF] ++ (Utf8.encode p.2 ++ [0xFF])) ++
    match time with
    | some t => Fnv.octets (twosComplement t)
    | none => []

/-- There is one such order, and it is the one in which labels are folded. -/
theorem ordered_iff {labels ordered : List (String × String)} :
    Ordered labels ordered ↔ ordered = Labels.sorted labels := by
  constructor
  · intro h
    have hascending : ordered.Pairwise fun p q => Utf8.le p.1 q.1 = true :=
      h.ascending.imp fun hle => Utf8.le_iff.mpr hle
    refine Labels.eq_of_ofKey_eq hascending (Labels.sorted_pairwise labels) fun key => ?_
    rw [h.stable, Labels.ofKey_sorted]
  · rintro rfl
    constructor
    case perm => exact Labels.sorted_perm labels
    case ascending => exact (Labels.sorted_pairwise labels).imp fun hle => Utf8.le_iff.mp hle
    case stable => exact fun key => Labels.ofKey_sorted key labels

theorem timeBytes_some (t : Instant) : timeBytes (some t) = Fnv.octets (twosComplement t) := by
  rw [timeBytes, Fnv.wordBytes_eq_octets, twosComplement, ← t.toNat_toUInt64_stamp,
    Int.toNat_natCast]

theorem encoding_eq_message (name : String) (keys values : List String)
    (time : Option Instant) :
    encoding name keys values time =
      message name (Labels.sorted (pairs keys values)) time := by
  cases time with
  | none => rfl
  | some t =>
      rw [encoding, timeBytes_some]
      rfl

/-- Values beyond the keys are in no pair. -/
theorem pairs_take (keys values : List String) :
    pairs keys (values.take keys.length) = pairs keys values := by
  refine List.map_congr_left fun row hrow => ?_
  have hlt : row.2 < keys.length := List.snd_lt_of_mem_zipIdx hrow
  rw [List.getElem?_take_of_lt hlt]

/-- A fingerprint is the FNV-1a of a message: the name, then the labels with ascending keys
and equal keys as they were given, then the time.  A key without a value has an empty one,
and a value without a key is of no account. -/
theorem digest_of_columns (name : String) (keys values : List String) (time : Option Instant) :
    ∃ ordered, (∀ other, Ordered (pairs keys values) other ↔ other = ordered) ∧
      (of name keys values time).toNat = Fnv.digest (message name ordered time) ∧
      of name keys (values.take keys.length) time = of name keys values time := by
  refine ⟨Labels.sorted (pairs keys values), fun other => ordered_iff, ?_, ?_⟩
  · rw [of_eq_hash, Fnv.toNat_hash, encoding_eq_message]
  · rw [of_eq_hash, of_eq_hash, encoding, encoding, pairs_take]

end Fingerprint

end Scrape
