/-
Spellings of JSON.

A value can be written in many ways.  Blanks may stand between its parts, and a
character within quotes may stand for itself or be escaped, by a letter, by a unit
of four hexadecimal digits, or by two such units where one is too short.  `Spells`
says which bytes are a spelling of a value, without a word on how they are read.
What gaps a spelling may have is a parameter: blanks in texts that somebody wrote,
nothing in the compact text.

A value is taken as it was written, so an object may have a key again and again.
What is meant by it is `Value.settled`: at every level each key once, where it
stands first, with the value that it has last.
-/
import Mathlib.Algebra.Group.Int.Defs
import Mathlib.Data.List.Induction
import Mathlib.Data.List.Nodup
import Scrape.Json.Value
import Scrape.Decimal.Layout
import Scrape.Utf8

namespace Scrape.Json

/-! ## Characters -/

/-- The letters that stand for a character behind a backslash. -/
def letters : List (Char × UInt8) :=
  [('"', 0x22), ('\\', 0x5C), ('/', 0x2F), ('\x08', 0x62), ('\x0c', 0x66), ('\n', 0x6E),
    ('\r', 0x72), ('\t', 0x74)]

/-- A hexadecimal digit in either case. -/
inductive HexDigit : Nat → UInt8 → Prop where
  | decimal {d : Nat} {b : UInt8} : d < 10 → b.toNat = 0x30 + d → HexDigit d b
  | upper {d : Nat} {b : UInt8} : d < 6 → b.toNat = 0x41 + d → HexDigit (10 + d) b
  | lower {d : Nat} {b : UInt8} : d < 6 → b.toNat = 0x61 + d → HexDigit (10 + d) b

/-- Four hexadecimal digits. -/
inductive HexUnit : Nat → List UInt8 → Prop where
  | digits {d₁ d₂ d₃ d₄ : Nat} {b₁ b₂ b₃ b₄ : UInt8} : HexDigit d₁ b₁ → HexDigit d₂ b₂ →
      HexDigit d₃ b₃ → HexDigit d₄ b₄ →
      HexUnit (((d₁ * 16 + d₂) * 16 + d₃) * 16 + d₄) [b₁, b₂, b₃, b₄]

/-- How a character may stand between quotes. -/
inductive SpellsChar : Char → List UInt8 → Prop where
  | raw {c : Char} : 0x20 ≤ c.toNat → c ≠ '"' → c ≠ '\\' → SpellsChar c (String.utf8EncodeChar c)
  | letter {c : Char} {b : UInt8} : (c, b) ∈ letters → SpellsChar c [0x5C, b]
  | unit {c : Char} {digits : List UInt8} : HexUnit c.toNat digits →
      SpellsChar c (0x5C :: 0x75 :: digits)
  /-- A character beyond the units is given by the ten upper and the ten lower bits of what
  it lies beyond them. -/
  | pair {c : Char} {high low : List UInt8} : 0x10000 ≤ c.toNat →
      HexUnit (0xD800 + (c.toNat - 0x10000) / 0x400) high →
      HexUnit (0xDC00 + (c.toNat - 0x10000) % 0x400) low →
      SpellsChar c (0x5C :: 0x75 :: high ++ 0x5C :: 0x75 :: low)

inductive SpellsChars : List Char → List UInt8 → Prop where
  | nil : SpellsChars [] []
  | cons {c : Char} {bytes : List UInt8} {cs : List Char} {rest : List UInt8} :
      SpellsChar c bytes → SpellsChars cs rest → SpellsChars (c :: cs) (bytes ++ rest)

/-- A text between its quotes. -/
inductive SpellsText : String → List UInt8 → Prop where
  | quoted {s : String} {bytes : List UInt8} : SpellsChars s.toList bytes →
      SpellsText s (0x22 :: bytes ++ [0x22])

/-! ## Values -/

/-- The bytes that JSON admits between the parts of a text. -/
def Blanks (bytes : List UInt8) : Prop :=
  ∀ b ∈ bytes, b = 0x20 ∨ b = 0x09 ∨ b = 0x0A ∨ b = 0x0D

/-- An item of an array: its value and the bytes of it, and the gaps around them. -/
structure Item where
  before : List UInt8
  value : Value
  bytes : List UInt8
  after : List UInt8

def Item.spelled (i : Item) : List UInt8 :=
  i.before ++ (i.bytes ++ i.after)

/-- A member of an object: its key and the bytes of it, the gaps around them, and what stands
behind the colon. -/
structure Member where
  before : List UInt8
  key : String
  bytes : List UInt8
  after : List UInt8
  item : Item

def Member.spelled (m : Member) : List UInt8 :=
  m.before ++ (m.bytes ++ (m.after ++ 0x3A :: m.item.spelled))

/-- A member as it was written. -/
def Member.pair (m : Member) : String × Value :=
  (m.key, m.item.value)

/-- Parts with commas between them. -/
def listed (parts : List (List UInt8)) : List UInt8 :=
  [0x2C].intercalate parts

/-- The bytes are a spelling of the value with such gaps.  Integers are written in base ten;
doubles are left out. -/
inductive Spells (gap : List UInt8 → Prop) : Value → List UInt8 → Prop where
  | null : Spells gap .null [0x6E, 0x75, 0x6C, 0x6C]
  | true : Spells gap (.bool true) [0x74, 0x72, 0x75, 0x65]
  | false : Spells gap (.bool false) [0x66, 0x61, 0x6C, 0x73, 0x65]
  | integer (n : Int) : Spells gap (.number (.integer n))
      (Utf8.encode (String.ofList (Decimal.intDigits n)))
  | text {s : String} {bytes : List UInt8} : SpellsText s bytes → Spells gap (.text s) bytes
  | emptyArray {bytes : List UInt8} : gap bytes → Spells gap (.array []) (0x5B :: bytes ++ [0x5D])
  | array {items : List Item} : items ≠ [] →
      (∀ i ∈ items, gap i.before ∧ gap i.after) → (∀ i ∈ items, Spells gap i.value i.bytes) →
      Spells gap (.array (items.map Item.value)) (0x5B :: listed (items.map Item.spelled) ++ [0x5D])
  | emptyObject {bytes : List UInt8} : gap bytes →
      Spells gap (.object []) (0x7B :: bytes ++ [0x7D])
  | object {members : List Member} : members ≠ [] →
      (∀ m ∈ members, gap m.before ∧ gap m.after ∧ gap m.item.before ∧ gap m.item.after) →
      (∀ m ∈ members, SpellsText m.key m.bytes) →
      (∀ m ∈ members, Spells gap m.item.value m.item.bytes) →
      Spells gap (.object (members.map Member.pair))
        (0x7B :: listed (members.map Member.spelled) ++ [0x7D])

/-! ## What is meant -/

/-- Of members with repeated keys each key once, where it stands first, with the value that
it has last. -/
def lasting (members : List (String × Value)) : List (String × Value) :=
  (members.map Prod.fst).eraseDups.map fun key =>
    (key, (members.reverse.lookup key).getD .null)

namespace Value

mutual

/-- The value with repeated keys resolved at every level. -/
def settled : Value → Value
  | .array items => .array (settledItems items)
  | .object members => .object (lasting (settledMembers members))
  | v => v

def settledItems : List Value → List Value
  | [] => []
  | v :: items => v.settled :: settledItems items

def settledMembers : List (String × Value) → List (String × Value)
  | [] => []
  | (key, v) :: members => (key, v.settled) :: settledMembers members

end

/-- The integers of a value fit into 64 bits, with a sign or without, it has no doubles, and
no more than `depth` of its containers are nested. -/
inductive Plain : Nat → Value → Prop where
  | null (depth : Nat) : Plain depth .null
  | bool (depth : Nat) (b : Bool) : Plain depth (.bool b)
  | integer (depth : Nat) {n : Int} : -2 ^ 63 ≤ n → n < 2 ^ 64 →
      Plain depth (.number (.integer n))
  | text (depth : Nat) (s : String) : Plain depth (.text s)
  | array {depth : Nat} {items : List Value} : (∀ v ∈ items, Plain depth v) →
      Plain (depth + 1) (.array items)
  | object {depth : Nat} {members : List (String × Value)} : (∀ m ∈ members, Plain depth m.2) →
      Plain (depth + 1) (.object members)

theorem settledItems_eq_map (items : List Value) : settledItems items = items.map settled := by
  induction items with
  | nil => rfl
  | cons v items ih => exact congrArg (v.settled :: ·) ih

theorem settledMembers_eq_map (members : List (String × Value)) :
    settledMembers members = members.map fun m => (m.1, m.2.settled) := by
  induction members with
  | nil => rfl
  | cons m members ih => exact congrArg ((m.1, m.2.settled) :: ·) ih

end Value

/-! ## Members one after another -/

theorem eraseDups_concat (keys : List String) (key : String) :
    (keys ++ [key]).eraseDups =
      if key ∈ keys then keys.eraseDups else keys.eraseDups ++ [key] := by
  rw [List.eraseDups_append]
  by_cases h : key ∈ keys
  · rw [if_pos h]
    simp [List.removeAll, h]
  · rw [if_neg h]
    simp [List.removeAll, h, List.eraseDups_cons]

theorem nodup_eraseDups (keys : List String) : keys.eraseDups.Nodup := by
  induction keys using List.reverseRecOn with
  | nil => exact List.nodup_nil
  | append_singleton keys key ih =>
      rw [eraseDups_concat]
      by_cases h : key ∈ keys
      · rwa [if_pos h]
      · rw [if_neg h]
        refine ih.append (List.nodup_singleton key) ?_
        rw [List.disjoint_singleton, List.mem_eraseDups]
        exact h

/-- To set a key of a table that has it changes its entry, and to set a new one adds an entry. -/
theorem setMember_map {keys : List String} (h : keys.Nodup) (f : String → Value) (key : String)
    (v : Value) :
    Value.setMember key v (keys.map fun k => (k, f k)) =
      if key ∈ keys then keys.map fun k => (k, if k = key then v else f k)
      else (keys.map fun k => (k, f k)) ++ [(key, v)] := by
  induction keys with
  | nil => rfl
  | cons k keys ih =>
      obtain ⟨hk, hkeys⟩ := List.nodup_cons.mp h
      rw [List.map_cons, Value.setMember]
      by_cases hkey : k = key
      · subst hkey
        rw [if_pos rfl, if_pos List.mem_cons_self, List.map_cons, if_pos rfl]
        refine congrArg ((k, v) :: ·) (List.map_congr_left fun k' hk' => ?_)
        rw [if_neg]
        rintro rfl
        exact hk hk'
      · have hmem : key ∈ k :: keys ↔ key ∈ keys := by
          rw [List.mem_cons, or_iff_right (Ne.symm hkey)]
        rw [if_neg hkey, ih hkeys, List.map_cons, if_neg hkey]
        by_cases h : key ∈ keys
        · rw [if_pos h, if_pos (hmem.mpr h)]
        · rw [if_neg h, if_neg (mt hmem.mp h)]
          rfl

/-- One more member of an object is set. -/
theorem lasting_concat (members : List (String × Value)) (key : String) (v : Value) :
    lasting (members ++ [(key, v)]) = Value.setMember key v (lasting members) := by
  have hlookup (k : String) : ((members ++ [(key, v)]).reverse.lookup k).getD .null =
      if k = key then v else (members.reverse.lookup k).getD .null := by
    rw [List.reverse_append, List.reverse_singleton, List.singleton_append, List.lookup_cons]
    by_cases hk : k = key
    · rw [if_pos hk, beq_iff_eq.mpr hk]
      rfl
    · rw [if_neg hk, beq_eq_false_iff_ne.mpr hk]
  rw [lasting, lasting, setMember_map (nodup_eraseDups _), List.map_append, List.map_singleton,
    eraseDups_concat]
  simp only [hlookup, List.mem_eraseDups]
  by_cases h : key ∈ members.map Prod.fst
  · rw [if_pos h, if_pos h]
  · rw [if_neg h, if_neg h, List.map_append, List.map_singleton, if_pos rfl]
    refine congrArg (· ++ [(key, v)]) (List.map_congr_left fun k hk => ?_)
    rw [if_neg]
    rintro rfl
    exact h (List.mem_eraseDups.mp hk)

/-- Members that are set one after another are the lasting ones. -/
theorem foldl_setMember (members : List (String × Value)) :
    members.foldl (fun set m => Value.setMember m.1 m.2 set) [] = lasting members := by
  induction members using List.reverseRecOn with
  | nil => rfl
  | append_singleton members m ih => rw [List.foldl_concat, ih, lasting_concat]

/-- A lasting member is the last one of its key. -/
theorem exists_of_mem_lasting {members : List (String × Value)} {m : String × Value}
    (h : m ∈ lasting members) :
    ∃ before after, members = before ++ m :: after ∧ m.1 ∉ after.map Prod.fst := by
  obtain ⟨key, hkey, rfl⟩ := List.mem_map.mp h
  rw [List.mem_eraseDups, List.mem_map] at hkey
  obtain ⟨n, hn, rfl⟩ := hkey
  cases hlookup : members.reverse.lookup n.1 with
  | none =>
      have hne := List.lookup_eq_none_iff.mp hlookup n (List.mem_reverse.mpr hn)
      exact absurd hne (by simp)
  | some v =>
      obtain ⟨after, before, hmembers, hafter⟩ := List.lookup_eq_some_iff.mp hlookup
      refine ⟨before.reverse, after.reverse, ?_, ?_⟩
      · rw [← List.reverse_reverse members, hmembers]
        simp
      · intro hkey
        obtain ⟨m, hm, heq⟩ := List.mem_map.mp hkey
        have hne := hafter m (List.mem_reverse.mp hm)
        simp only [heq] at hne
        exact absurd hne (by simp)

end Scrape.Json
