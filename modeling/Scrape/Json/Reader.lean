/-
Reading JSON, byte by byte.

The reader is a machine with a stack.  Its mode says what the bytes so far
allow next, and the stack holds the containers that wait for the value being
read.  One step takes one byte, so a reading can stop and go on anywhere:
reading a text in two parts is reading it at once (`run_append`).

A byte that no text could have at its place stops the machine at once.  Only
two faults are found late.  A number out of range is found when the byte
behind it is read.  Bytes that are no characters are found at the closing
quote: what stands between the quotes is gathered as bytes, the escapes
written out, and only the whole of it is read as characters.  Any other fault
between the quotes is found first.
-/
import Scrape.Json.Fault
import Scrape.Json.Numeral
import Scrape.Json.Value
import Scrape.Utf8

namespace Scrape.Json

/-- A container that waits for a value: an array with the items before it, the last one first, or
an object with the members before it and the key of the value. -/
inductive Frame where
  | item (items : List Value)
  | member (members : List (String × Value)) (key : String)
deriving Repr

/-- What a text is for: to be a value, or a key behind the members of an object. -/
inductive Role where
  | value
  | key (members : List (String × Value))
deriving Repr

/-- Where an escape stands. -/
inductive Escape where
  /-- Behind the backslash. -/
  | mark
  /-- Within the four digits behind `\u`, with those before; `lead` is the first half of a
  surrogate pair. -/
  | unit (lead : Option Nat) (digits : List UInt8)
  /-- Behind the first half of a surrogate pair, whose second half needs a backslash. -/
  | pair (lead : Nat)
  /-- Behind that backslash, which needs a `u`. -/
  | pairMark (lead : Nat)
deriving Repr

/-- What the bytes so far allow next. -/
inductive Mode where
  /-- A value. -/
  | value
  /-- The first item of an array, or its end. -/
  | firstItem
  /-- A comma behind the items of an array, or its end.  The last item comes first. -/
  | itemEnd (items : List Value)
  /-- Another item behind a comma. -/
  | nextItem (items : List Value)
  /-- The first key of an object, or its end. -/
  | firstKey
  /-- The colon behind a key. -/
  | colon (members : List (String × Value)) (key : String)
  /-- A comma behind the members of an object, or its end. -/
  | memberEnd (members : List (String × Value))
  /-- Another key behind a comma. -/
  | nextKey (members : List (String × Value))
  /-- The rest of a word that stands for a value. -/
  | word (rest : List Char) (value : Value)
  /-- The rest of a number. -/
  | number (n : Numeral)
  /-- The rest of a text, given its bytes with the escapes written out, the last one first. -/
  | text (role : Role) (bytes : List UInt8)
  /-- The rest of an escape, given the bytes of the text before it. -/
  | escape (role : Role) (bytes : List UInt8) (e : Escape)
  /-- Blanks behind the value. -/
  | closed (value : Value)
deriving Repr

/-- The containers that wait and the mode. -/
structure State where
  stack : List Frame
  mode : Mode
deriving Repr

/-- A fault found at a byte: its cause, and how many bytes before the end of that byte it lies. -/
structure Halt where
  cause : Cause
  back : Nat
deriving DecidableEq, Repr

/-- The result of a step. -/
abbrev Move := Except Halt State

/-- A fault of the byte itself. -/
def halt (cause : Cause) : Move :=
  .error ⟨cause, 0⟩

/-- The bytes that may stand between the parts of a JSON text. -/
def isBlank (b : UInt8) : Bool :=
  b == 0x20 || b == 0x0A || b == 0x09 || b == 0x0D

/-- How many containers may be open at once. -/
def maxDepth : Nat := 127

namespace State

/-- The state at the beginning of a text. -/
def start : State := ⟨[], .value⟩

/-! ## Values -/

/-- A complete value goes to the container that waits for it. -/
def deliver (value : Value) : List Frame → State
  | [] => ⟨[], .closed value⟩
  | .item items :: stack => ⟨stack, .itemEnd (value :: items)⟩
  | .member members key :: stack => ⟨stack, .memberEnd (Value.setMember key value members)⟩

/-- A container is opened if there are not too many. -/
def openWith (stack : List Frame) (mode : Mode) : Move :=
  if stack.length < maxDepth then .ok ⟨stack, mode⟩ else halt .tooDeep

/-- The first byte of a value. -/
def beginValue (stack : List Frame) (b : UInt8) : Move :=
  match Char.ofUInt8 b with
  | 'n' => .ok ⟨stack, .word ['u', 'l', 'l'] .null⟩
  | 't' => .ok ⟨stack, .word ['r', 'u', 'e'] (.bool true)⟩
  | 'f' => .ok ⟨stack, .word ['a', 'l', 's', 'e'] (.bool false)⟩
  | '"' => .ok ⟨stack, .text .value []⟩
  | '[' => openWith stack .firstItem
  | '{' => openWith stack .firstKey
  | _ =>
    match Numeral.begin? b with
    | some n => .ok ⟨stack, .number n⟩
    | none => halt .expectedValue

/-- A byte of a word. -/
def inWord (stack : List Frame) (value : Value) (b : UInt8) : List Char → Move
  | [] => halt .expectedWord
  | c :: rest =>
    if Char.ofUInt8 b = c then
      .ok (if rest.isEmpty then deliver value stack else ⟨stack, .word rest value⟩)
    else
      halt .expectedWord

/-! ## Between values -/

/-- A byte behind an item of an array. -/
def atItemEnd (stack : List Frame) (items : List Value) (b : UInt8) : Move :=
  if isBlank b then .ok ⟨stack, .itemEnd items⟩
  else
    match Char.ofUInt8 b with
    | ',' => .ok ⟨stack, .nextItem items⟩
    | ']' => .ok (deliver (.array items.reverse) stack)
    | _ => halt .expectedItemEnd

/-- A byte behind a member of an object. -/
def atMemberEnd (stack : List Frame) (members : List (String × Value)) (b : UInt8) : Move :=
  if isBlank b then .ok ⟨stack, .memberEnd members⟩
  else
    match Char.ofUInt8 b with
    | ',' => .ok ⟨stack, .nextKey members⟩
    | '}' => .ok (deliver (.object members) stack)
    | _ => halt .expectedMemberEnd

/-- A byte behind the whole value. -/
def atClosed (value : Value) (b : UInt8) : Move :=
  if isBlank b then .ok ⟨[], .closed value⟩ else halt .trailingBytes

/-- A byte behind a value whose end only that byte showed. -/
def behind (value : Value) (b : UInt8) : List Frame → Move
  | [] => atClosed value b
  | .item items :: stack => atItemEnd stack (value :: items) b
  | .member members key :: stack => atMemberEnd stack (Value.setMember key value members) b

/-- A byte of a number, or the one behind it.  A number out of range is found one byte late. -/
def inNumber (stack : List Frame) (n : Numeral) (b : UInt8) : Move :=
  match n.stage.next b with
  | .more stage => .ok ⟨stack, .number { n with stage }⟩
  | .fault cause => halt cause
  | .ended =>
    match n.value with
    | .ok number => behind (.number number) b stack
    | .error cause => .error ⟨cause, 1⟩

/-! ## Texts -/

/-- A complete text. -/
def endText (stack : List Frame) (role : Role) (text : String) : State :=
  match role with
  | .value => deliver (.text text) stack
  | .key members => ⟨stack, .colon members text⟩

/-- The text of the bytes between two quotes, read at the closing one.  Where they are no text, the
fault is placed as many bytes before the end of that quote as there are left from the first one
that belongs to no character.  Escapes count as they are written out, so behind a long spelling
the place lies to the right of the byte. -/
def closeText (bytes : List UInt8) : Except Halt String :=
  match Utf8.decode bytes.reverse with
  | .ok chars => .ok (String.ofList chars)
  | .error before => .error ⟨.badCharacter, bytes.length - before⟩

/-- A byte of a text. -/
def inText (stack : List Frame) (role : Role) (bytes : List UInt8) (b : UInt8) : Move :=
  match Char.ofUInt8 b with
  | '"' => (closeText bytes).map (endText stack role)
  | '\\' => .ok ⟨stack, .escape role bytes .mark⟩
  | _ => if b.toNat < 0x20 then halt .rawControl else .ok ⟨stack, .text role (b :: bytes)⟩

/-- A character written out behind the bytes of a text. -/
def appendChar (bytes : List UInt8) (c : Char) : List UInt8 :=
  (String.utf8EncodeChar c).reverse ++ bytes

/-- The character of an escape of one letter. -/
def escaped? (b : UInt8) : Option Char :=
  match Char.ofUInt8 b with
  | '"' => some '"'
  | '\\' => some '\\'
  | '/' => some '/'
  | 'b' => some '\x08'
  | 'f' => some '\x0c'
  | 'n' => some '\n'
  | 'r' => some '\r'
  | 't' => some '\t'
  | _ => none

/-- The value of a hexadecimal digit in either case. -/
def hexDigit? (b : UInt8) : Option Nat :=
  if 0x30 ≤ b.toNat ∧ b.toNat ≤ 0x39 then some (b.toNat - 0x30)
  else if 0x41 ≤ b.toNat ∧ b.toNat ≤ 0x46 then some (b.toNat - 0x41 + 10)
  else if 0x61 ≤ b.toNat ∧ b.toNat ≤ 0x66 then some (b.toNat - 0x61 + 10)
  else none

/-- The number of hexadecimal digits. -/
def hexNumber? (digits : List UInt8) : Option Nat :=
  digits.foldlM (fun n b => (hexDigit? b).map (n * 16 + ·)) 0

/-- The unit of four digits behind `\u`: a character, half of a pair, or the end of a pair. -/
def endUnit (stack : List Frame) (role : Role) (bytes : List UInt8) (lead : Option Nat)
    (n : Nat) : Move :=
  let back (c : Nat) : Move := .ok ⟨stack, .text role (appendChar bytes (Char.ofNat c))⟩
  match lead with
  | none =>
    if 0xDC00 ≤ n ∧ n < 0xE000 then halt .loneSurrogate
    else if 0xD800 ≤ n ∧ n < 0xDC00 then .ok ⟨stack, .escape role bytes (.pair n)⟩
    else back n
  | some high =>
    if 0xDC00 ≤ n ∧ n < 0xE000 then back (0x10000 + (high - 0xD800) * 0x400 + (n - 0xDC00))
    else halt .loneSurrogate

/-- A byte of an escape.  The four digits of a unit are judged when all are there. -/
def inEscape (stack : List Frame) (role : Role) (bytes : List UInt8) (e : Escape)
    (b : UInt8) : Move :=
  match e with
  | .mark =>
    if Char.ofUInt8 b = 'u' then .ok ⟨stack, .escape role bytes (.unit none [])⟩
    else
      match escaped? b with
      | some c => .ok ⟨stack, .text role (appendChar bytes c)⟩
      | none => halt .badEscape
  | .unit lead digits =>
    if digits.length < 3 then .ok ⟨stack, .escape role bytes (.unit lead (digits ++ [b]))⟩
    else
      match hexNumber? (digits ++ [b]) with
      | some n => endUnit stack role bytes lead n
      | none => halt .badEscape
  | .pair lead =>
    if Char.ofUInt8 b = '\\' then .ok ⟨stack, .escape role bytes (.pairMark lead)⟩
    else halt .missingSurrogate
  | .pairMark lead =>
    if Char.ofUInt8 b = 'u' then .ok ⟨stack, .escape role bytes (.unit (some lead) [])⟩
    else halt .missingSurrogate

/-! ## The machine -/

/-- One byte. -/
def step (s : State) (b : UInt8) : Move :=
  match s.mode with
  | .value => if isBlank b then .ok s else beginValue s.stack b
  | .firstItem =>
    if isBlank b then .ok s
    else if Char.ofUInt8 b = ']' then .ok (deliver (.array []) s.stack)
    else beginValue (.item [] :: s.stack) b
  | .itemEnd items => atItemEnd s.stack items b
  | .nextItem items =>
    if isBlank b then .ok s
    else if Char.ofUInt8 b = ']' then halt .trailingComma
    else beginValue (.item items :: s.stack) b
  | .firstKey =>
    if isBlank b then .ok s
    else
      match Char.ofUInt8 b with
      | '}' => .ok (deliver (.object []) s.stack)
      | '"' => .ok ⟨s.stack, .text (.key []) []⟩
      | _ => halt .expectedKey
  | .colon members key =>
    if isBlank b then .ok s
    else if Char.ofUInt8 b = ':' then .ok ⟨.member members key :: s.stack, .value⟩
    else halt .expectedColon
  | .memberEnd members => atMemberEnd s.stack members b
  | .nextKey members =>
    if isBlank b then .ok s
    else
      match Char.ofUInt8 b with
      | '"' => .ok ⟨s.stack, .text (.key members) []⟩
      | '}' => halt .trailingComma
      | _ => halt .expectedKey
  | .word rest value => inWord s.stack value b rest
  | .number n => inNumber s.stack n b
  | .text role bytes => inText s.stack role bytes b
  | .escape role bytes e => inEscape s.stack role bytes e b
  | .closed value => atClosed value b

/-- The value of a text that ends here, or what it lacks. -/
def finish (s : State) : Except Cause Value :=
  match s.mode with
  | .closed value => .ok value
  | .number n =>
    match n.value, s.stack with
    | .error cause, _ => .error cause
    | .ok number, [] => .ok (.number number)
    | .ok _, .item _ :: _ => .error .unendedArray
    | .ok _, .member .. :: _ => .error .unendedObject
  | .firstItem | .itemEnd _ => .error .unendedArray
  | .firstKey | .colon .. | .memberEnd _ => .error .unendedObject
  | .text .. | .escape .. => .error .unendedText
  | .value | .nextItem _ | .nextKey _ | .word .. => .error .unendedValue

/-- Reads bytes from a state on.  A fault comes with the number of bytes read up to it, `offset` of
them before these. -/
def run (s : State) (offset : Nat) : List UInt8 → Except (Cause × Nat) State
  | [] => .ok s
  | b :: bytes =>
    match s.step b with
    | .ok s => s.run (offset + 1) bytes
    | .error h => .error (h.cause, offset + 1 - h.back)

/-- Reading a text in two parts is reading it at once. -/
theorem run_append (s : State) (offset : Nat) (p q : List UInt8) :
    s.run offset (p ++ q) = (s.run offset p).bind fun t => t.run (offset + p.length) q := by
  induction p generalizing s offset with
  | nil => rfl
  | cons b p ih =>
    simp only [List.cons_append, run, List.length_cons]
    cases s.step b with
    | error h => rfl
    | ok t => simpa only [Nat.add_assoc, Nat.add_comm 1] using ih t (offset + 1)

end State

/-- The value of a JSON text, or the first thing wrong with it. -/
def read (text : List UInt8) : Except Fault Value :=
  match State.start.run 0 text with
  | .error (cause, offset) => .error (Fault.found cause text offset)
  | .ok s =>
    match s.finish with
    | .ok value => .ok value
    | .error cause => .error (Fault.found cause text text.length)

end Scrape.Json
