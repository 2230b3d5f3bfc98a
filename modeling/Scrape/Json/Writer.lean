/-
Writing JSON.

The compact text of a value: no blanks, members in their order, numbers in
their shortest form.  A text is written between quotes; only the quote, the
backslash and the control characters are escaped.
-/
import Scrape.Decimal.Layout
import Scrape.Json.Value

namespace Scrape.Json

/-- Doubles are written in place while the leading digit stands for `10 ^ -5` up to
`10 ^ 15`. -/
def doubleLayout : Layout := ⟨-5, 15⟩

/-- The text of a number. -/
def Number.render : Number → String
  | .integer n => String.ofList (Decimal.intDigits n)
  | .double bits => String.ofList (doubleLayout.renderDouble bits)

/-- A hexadecimal digit in lower case. -/
def hexDigit (n : Nat) : Char :=
  Nat.digitChar n

/-- A character within quotes. -/
def escapeChar (c : Char) : List Char :=
  match c with
  | '"' => ['\\', '"']
  | '\\' => ['\\', '\\']
  | '\x08' => ['\\', 'b']
  | '\x0c' => ['\\', 'f']
  | '\n' => ['\\', 'n']
  | '\r' => ['\\', 'r']
  | '\t' => ['\\', 't']
  | _ =>
    if c.toNat < 0x20 then
      ['\\', 'u', '0', '0', hexDigit (c.toNat / 16), hexDigit (c.toNat % 16)]
    else [c]

/-- A text within quotes. -/
def quote (s : String) : String :=
  String.ofList ('"' :: s.toList.flatMap escapeChar ++ ['"'])

namespace Value

mutual

/-- The compact text of a value. -/
def render : Value → String
  | .null => "null"
  | .bool true => "true"
  | .bool false => "false"
  | .number n => n.render
  | .text s => quote s
  | .array items => "[" ++ ",".intercalate (renderItems items) ++ "]"
  | .object members => "\x7b" ++ ",".intercalate (renderMembers members) ++ "\x7d"

/-- The compact texts of the items of an array. -/
def renderItems : List Value → List String
  | [] => []
  | v :: items => v.render :: renderItems items

/-- The compact texts of the members of an object. -/
def renderMembers : List (String × Value) → List String
  | [] => []
  | (key, v) :: members => (quote key ++ ":" ++ v.render) :: renderMembers members

end

end Value

end Scrape.Json
