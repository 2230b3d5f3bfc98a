/-
JSON values.

An object keeps its members in the order in which their keys first appeared.
Setting a key again replaces its value where it stands.
-/

namespace Scrape.Json

/-- A number: an integer of at most 64 bits, or a finite double by its bit pattern. -/
inductive Number where
  | integer (n : Int)
  | double (bits : UInt64)
deriving DecidableEq, Repr

/-- A JSON value. -/
inductive Value where
  | null
  | bool (b : Bool)
  | number (n : Number)
  | text (s : String)
  | array (items : List Value)
  | object (members : List (String × Value))
deriving Repr

namespace Value

/-- The members of an object after a key is set: in the place of the key if it is there, and at
the end otherwise. -/
def setMember (key : String) (value : Value) :
    List (String × Value) → List (String × Value)
  | [] => [(key, value)]
  | p :: rest =>
    if p.1 = key then (key, value) :: rest else p :: setMember key value rest

end Value

end Scrape.Json
