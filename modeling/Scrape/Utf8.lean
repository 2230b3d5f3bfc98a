/-
Text as bytes.

Names and labels are text.  Their order, their fingerprint and the payload
they are read from are matters of bytes, so this module holds the passage
between the two: the UTF-8 bytes of a text, the order those bytes give, and
the reading of bytes that may fail.  A byte of a text is never `0xFF`, which
is why `0xFF` can end a field of a fingerprint.
-/

namespace Scrape.Utf8

/-- The UTF-8 bytes of a text. -/
def encode (s : String) : List UInt8 :=
  s.toByteArray.data.toList

/-- Texts in the order of their bytes. -/
def lt (s t : String) : Prop :=
  encode s < encode t

instance : DecidableRel lt :=
  fun s t => inferInstanceAs (Decidable (encode s < encode t))

/-- The order of bytes with equal texts admitted: `s` does not come after `t`. -/
def le (s t : String) : Bool :=
  !decide (lt t s)

theorem encode_inj {s t : String} : encode s = encode t ↔ s = t := by
  refine ⟨fun h => ?_, fun h => h ▸ rfl⟩
  exact String.toByteArray_inj.1 (ByteArray.ext (Array.toList_inj.1 h))

theorem lt_trans {s t u : String} (h : lt s t) (h' : lt t u) : lt s u :=
  List.lt_trans h h'

/-- Of two different texts one comes first. -/
theorem lt_of_not_lt {s t : String} (h : ¬ lt s t) (hne : s ≠ t) : lt t s :=
  Decidable.byContradiction fun h' =>
    hne (encode_inj.1 (List.le_antisymm (List.not_lt.1 h') (List.not_lt.1 h)))

/-! ## Reading -/

/-- The six bits that a byte after the first one carries. -/
def tail? (b : UInt8) : Option Nat :=
  if 0x80 ≤ b.toNat ∧ b.toNat < 0xC0 then some (b.toNat - 0x80) else none

/-- The character of the number `n`, when it needs at least the number `least`: a character
has one spelling only, the shortest, and a surrogate has none. -/
def char? (least n : Nat) : Option Char :=
  if h : least ≤ n ∧ n.isValidChar then some (Char.ofNatAux n h.2) else none

/-- A character of two bytes. -/
def pair? (a b : UInt8) : Option Char :=
  if 0xC0 ≤ a.toNat ∧ a.toNat < 0xE0 then do
    char? 0x80 ((a.toNat - 0xC0) * 64 + (← tail? b))
  else
    none

/-- A character of three bytes. -/
def triple? (a b c : UInt8) : Option Char :=
  if 0xE0 ≤ a.toNat ∧ a.toNat < 0xF0 then do
    char? 0x800 (((a.toNat - 0xE0) * 64 + (← tail? b)) * 64 + (← tail? c))
  else
    none

/-- A character of four bytes. -/
def quadruple? (a b c d : UInt8) : Option Char :=
  if 0xF0 ≤ a.toNat ∧ a.toNat < 0xF8 then do
    char? 0x10000
      ((((a.toNat - 0xF0) * 64 + (← tail? b)) * 64 + (← tail? c)) * 64 + (← tail? d))
  else
    none

/-- The text of a run of bytes, or how many bytes stand before the first one that belongs to
no character. -/
def decode : List UInt8 → Except Nat (List Char)
  | [] => .ok []
  | a :: r1 =>
    if a.toNat < 0x80 then
      after 1 (Char.ofNat a.toNat) (decode r1)
    else
      match r1 with
      | [] => .error 0
      | b :: r2 =>
        match pair? a b with
        | some c => after 2 c (decode r2)
        | none =>
          match r2 with
          | [] => .error 0
          | b' :: r3 =>
            match triple? a b b' with
            | some c => after 3 c (decode r3)
            | none =>
              match r3 with
              | [] => .error 0
              | b'' :: r4 =>
                match quadruple? a b b' b'' with
                | some c => after 4 c (decode r4)
                | none => .error 0
where
  /-- A character of `width` bytes before what was read behind it. -/
  after (width : Nat) (c : Char) : Except Nat (List Char) → Except Nat (List Char)
    | .ok cs => .ok (c :: cs)
    | .error n => .error (n + width)

end Scrape.Utf8
