/-
Reading back what was written.

The bytes of a text are read as that text, and none of them is `0xFF`.  Both
facts are shown for one character first; a text is a list of those.
-/
import Scrape.Utf8

namespace Scrape.Utf8

/-- The bytes of a text are those of its characters. -/
theorem encode_eq_flatMap (s : String) : encode s = s.toList.flatMap String.utf8EncodeChar := by
  have h : s.toByteArray = s.toList.utf8Encode := by
    rw [← String.toByteArray_ofList, String.ofList_toList]
  simp [encode, h, List.utf8Encode]

theorem encode_append (s t : String) : encode (s ++ t) = encode s ++ encode t := by
  rw [encode_eq_flatMap, encode_eq_flatMap, encode_eq_flatMap, String.toList_append,
    List.flatMap_append]

/-! ## One character -/

/-- A character of one byte is that byte; the bytes of all others are beyond them, and below
`0xF8`. -/
theorem toNat_of_mem_utf8EncodeChar {c : Char} {b : UInt8} (h : b ∈ String.utf8EncodeChar c) :
    b.toNat < 0xF8 ∧ (b.toNat = c.toNat ∨ 0x80 ≤ b.toNat) := by
  rw [show c.toNat = c.val.toNat from rfl]
  simp only [String.utf8EncodeChar] at h
  generalize c.val.toNat = n at h ⊢
  split at h
  · obtain rfl := List.mem_singleton.mp h
    rw [UInt8.toNat_ofNat']
    omega
  · -- what comes first says how many there are, and each of them has its high bit set
    split at h
    · simp only [List.mem_cons, List.not_mem_nil, or_false] at h
      rcases h with rfl | rfl <;> rw [UInt8.toNat_ofNat'] <;> omega
    · split at h
      · simp only [List.mem_cons, List.not_mem_nil, or_false] at h
        rcases h with rfl | rfl | rfl <;> rw [UInt8.toNat_ofNat'] <;> omega
      · simp only [List.mem_cons, List.not_mem_nil, or_false] at h
        rcases h with rfl | rfl | rfl | rfl <;> rw [UInt8.toNat_ofNat'] <;> omega

theorem char?_toNat {least : Nat} {c : Char} (h : least ≤ c.toNat) :
    char? least c.toNat = some c := by
  rw [char?, dif_pos ⟨h, c.valid⟩]
  rfl

theorem toNat_ofNat_add {n k : Nat} (h : n + k < 256) : (UInt8.ofNat (n + k)).toNat = n + k := by
  rw [UInt8.toNat_ofNat', Nat.mod_eq_of_lt h]

theorem tail?_ofNat {n : Nat} (h : n < 64) : tail? (UInt8.ofNat (n + 128)) = some n := by
  rw [tail?, toNat_ofNat_add (by omega), if_pos (by omega), Nat.add_sub_cancel]

theorem decode_pair {a b : UInt8} {c : Char} (ha : 0x80 ≤ a.toNat) (h : pair? a b = some c)
    (rest : List UInt8) : decode (a :: b :: rest) = decode.after 2 c (decode rest) := by
  rw [decode.eq_def]
  simp only [if_neg (Nat.not_lt.2 ha), h]

theorem decode_triple {a b b' : UInt8} {c : Char} (ha : 0xE0 ≤ a.toNat)
    (h : triple? a b b' = some c) (rest : List UInt8) :
    decode (a :: b :: b' :: rest) = decode.after 3 c (decode rest) := by
  have hp : pair? a b = none := if_neg (by omega)
  rw [decode.eq_def]
  simp only [if_neg (show ¬ a.toNat < 0x80 by omega), hp, h]

theorem decode_quadruple {a b b' b'' : UInt8} {c : Char} (ha : 0xF0 ≤ a.toNat)
    (h : quadruple? a b b' b'' = some c) (rest : List UInt8) :
    decode (a :: b :: b' :: b'' :: rest) = decode.after 4 c (decode rest) := by
  have hp : pair? a b = none := if_neg (by omega)
  have ht : triple? a b b' = none := if_neg (by omega)
  rw [decode.eq_def]
  simp only [if_neg (show ¬ a.toNat < 0x80 by omega), hp, ht, h]

/-- The bytes of a character are read as that character. -/
theorem decode_encodeChar (c : Char) (rest : List UInt8) :
    decode (String.utf8EncodeChar c ++ rest) =
      decode.after (String.utf8EncodeChar c).length c (decode rest) := by
  have hlt : c.toNat < 0x110000 := by
    have := c.valid
    simp only [UInt32.isValidChar, Nat.isValidChar] at this
    exact this.elim (fun h => Nat.lt_trans h (by decide)) (·.2)
  simp only [String.utf8EncodeChar, show c.val.toNat = c.toNat from rfl]
  split
  · next h =>
    have hn : (UInt8.ofNat c.toNat).toNat = c.toNat := by
      rw [UInt8.toNat_ofNat', Nat.mod_eq_of_lt (by omega)]
    simp only [List.cons_append, List.nil_append, List.length_cons, List.length_nil]
    rw [decode.eq_def]
    simp only [hn, if_pos (show c.toNat < 0x80 by omega), Char.ofNat_toNat]
  · split
    · next h =>
      refine decode_pair ?_ ?_ rest
      · rw [toNat_ofNat_add (by omega)]
        omega
      · rw [pair?, toNat_ofNat_add (by omega), if_pos (by omega), tail?_ofNat (by omega)]
        refine Eq.trans (congrArg (char? 0x80) ?_) (char?_toNat (by omega))
        omega
    · split
      · next h =>
        refine decode_triple ?_ ?_ rest
        · rw [toNat_ofNat_add (by omega)]
          omega
        · rw [triple?, toNat_ofNat_add (by omega), if_pos (by omega), tail?_ofNat (by omega),
            tail?_ofNat (by omega)]
          refine Eq.trans (congrArg (char? 0x800) ?_) (char?_toNat (by omega))
          omega
      · refine decode_quadruple ?_ ?_ rest
        · rw [toNat_ofNat_add (by omega)]
          omega
        · rw [quadruple?, toNat_ofNat_add (by omega), if_pos (by omega), tail?_ofNat (by omega),
            tail?_ofNat (by omega), tail?_ofNat (by omega)]
          refine Eq.trans (congrArg (char? 0x10000) ?_) (char?_toNat (by omega))
          omega

/-! ## Texts -/

/-- The bytes of characters are read as those characters. -/
theorem decode_flatMap (cs : List Char) :
    decode (cs.flatMap String.utf8EncodeChar) = .ok cs := by
  induction cs with
  | nil => rfl
  | cons c cs ih => rw [List.flatMap_cons, decode_encodeChar, ih, decode.after]

/-- The bytes from `0xF8` on belong to no text. -/
theorem toNat_lt_of_mem_encode {s : String} {b : UInt8} (h : b ∈ encode s) : b.toNat < 0xF8 := by
  rw [encode_eq_flatMap] at h
  obtain ⟨c, -, h⟩ := List.mem_flatMap.mp h
  exact (toNat_of_mem_utf8EncodeChar h).1

end Scrape.Utf8
