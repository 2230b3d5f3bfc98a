/-
What can be wrong with a JSON text, and where.

A fault names its cause and the place at which the text could no longer be the
beginning of a JSON text.  A place is a line and a column: lines count from
one, and the column is the number of bytes read of the line.
-/

namespace Scrape.Json

/-- Why a text is not JSON. -/
inductive Cause where
  | unendedArray
  | unendedObject
  | unendedText
  | unendedValue
  | expectedColon
  | expectedItemEnd
  | expectedMemberEnd
  | expectedWord
  | expectedValue
  | expectedKey
  | badEscape
  | badNumber
  | hugeNumber
  | badCharacter
  | rawControl
  | loneSurrogate
  | missingSurrogate
  | trailingComma
  | trailingBytes
  | tooDeep
deriving DecidableEq, Repr

/-- The wording of a cause. -/
def Cause.message : Cause → String
  | unendedArray => "EOF while parsing a list"
  | unendedObject => "EOF while parsing an object"
  | unendedText => "EOF while parsing a string"
  | unendedValue => "EOF while parsing a value"
  | expectedColon => "expected `:`"
  | expectedItemEnd => "expected `,` or `]`"
  | expectedMemberEnd => "expected `,` or `\x7d`"
  | expectedWord => "expected ident"
  | expectedValue => "expected value"
  | expectedKey => "key must be a string"
  | badEscape => "invalid escape"
  | badNumber => "invalid number"
  | hugeNumber => "number out of range"
  | badCharacter => "invalid unicode code point"
  | rawControl => "control character (\\u0000-\\u001F) found while parsing a string"
  | loneSurrogate => "lone leading surrogate in hex escape"
  | missingSurrogate => "unexpected end of hex escape"
  | trailingComma => "trailing comma"
  | trailingBytes => "trailing characters"
  | tooDeep => "recursion limit exceeded"

/-- A cause and its place. -/
structure Fault where
  cause : Cause
  line : Nat
  column : Nat
deriving DecidableEq, Repr

namespace Fault

/-- The line feed. -/
def lineFeed : UInt8 := 0x0A

/-- The fault of a cause found when `offset` bytes of the text have been read. -/
def found (cause : Cause) (text : List UInt8) (offset : Nat) : Fault :=
  let before := text.take offset
  ⟨cause, before.count lineFeed + 1, (before.reverse.takeWhile (· != lineFeed)).length⟩

/-- The wording of a fault, its place included. -/
def message (f : Fault) : String :=
  f.cause.message ++ " at line " ++ toString f.line ++ " column " ++ toString f.column

end Fault

end Scrape.Json
