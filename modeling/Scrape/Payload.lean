/-
Payloads of labels.

A payload is the free-form part of a sample's labels: bytes that should be a
JSON object.  Its members become labels, one each, in their order.  The whole
payload is read before the first label is there, so a payload gives all its
labels or none.
-/
import Scrape.Fault
import Scrape.Json.Reader
import Scrape.Json.Writer

namespace Scrape.Payload

/-- The bytes of which a blank payload consists.  The form feed is one of them, though JSON does
not know it as a blank. -/
def isSpace (b : UInt8) : Bool :=
  b == 0x0C || Json.isBlank b

/-- The label value of a member: a text as it is, nothing for `null`, and the compact text of any
other value. -/
def labelValue : Json.Value → String
  | .text s => s
  | .null => ""
  | v => v.render

/-- The labels of a JSON value. -/
def ofValue : Json.Value → Except Refusal (List (String × String))
  | .object members => .ok (members.map fun m => (m.1, labelValue m.2))
  | .null => .error .null
  | .array _ => .error .array
  | _ => .error .scalar

/-- The labels of a payload. -/
def labels (bytes : List UInt8) : Except Fault (List (String × String)) :=
  if bytes.all isSpace then .error (.payload .empty)
  else
    match Json.read bytes with
    | .error fault => .error (.json fault)
    | .ok value =>
      match ofValue value with
      | .ok pairs => .ok pairs
      | .error refusal => .error (.payload refusal)

end Scrape.Payload
