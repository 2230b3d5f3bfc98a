/-
Numbers, byte by byte.

The digits of a number are gathered in a significand of 64 bits.  A digit for
which it has no more room is dropped; one dropped before the point raises the
power of ten instead.  A number without point and exponent whose digits all
fit is an integer, any other a double: the significand as a double, multiplied
or divided by a power of ten.  The result need not be the nearest double.
-/
import Scrape.Json.Fault
import Scrape.Json.Value

namespace Scrape.Json

/-- How much of a number has been read.  `digits` is the significand and `scale` the power of ten
that belongs to it. -/
inductive Stage where
  /-- A minus sign and nothing else. -/
  | sign
  /-- A leading zero, which no digit may follow. -/
  | zero
  /-- The digits before the point, all of them in the significand. -/
  | whole (digits : Nat)
  /-- The digits before the point, the last ones dropped. -/
  | long (digits : Nat) (scale : Int)
  /-- The point, which needs a digit behind it. -/
  | point (digits : Nat) (scale : Int)
  /-- Digits behind the point. -/
  | fraction (digits : Nat) (scale : Int)
  /-- Digits behind the point that are dropped. -/
  | dropped (digits : Nat) (scale : Int)
  /-- The letter of the exponent. -/
  | mark (digits : Nat) (scale : Int)
  /-- The letter of the exponent and its sign. -/
  | marked (digits : Nat) (scale : Int) (down : Bool)
  /-- Digits of the exponent. -/
  | power (digits : Nat) (scale : Int) (down : Bool) (exponent : Nat)
  /-- Digits of an exponent so far down, or of a zero, that the value is zero. -/
  | vanished
deriving DecidableEq, Repr

/-- A number of which a first part has been read. -/
structure Numeral where
  negative : Bool
  stage : Stage
deriving DecidableEq, Repr

/-- What a byte does to a number. -/
inductive Stage.Next where
  /-- The byte belongs to the number. -/
  | more (stage : Stage)
  /-- The number ended before the byte. -/
  | ended
  /-- The byte may not stand here. -/
  | fault (cause : Cause)

namespace Stage

/-- The value of a digit. -/
def digit? (b : UInt8) : Option Nat :=
  if 0x30 ≤ b.toNat ∧ b.toNat ≤ 0x39 then some (b.toNat - 0x30) else none

/-- The significand with one more digit, if 64 bits have room for it. -/
def room? (digits d : Nat) : Option Nat :=
  if digits * 10 + d ≤ 0xFFFFFFFFFFFFFFFF then some (digits * 10 + d) else none

/-- The exponent with one more digit, if it still fits into 31 bits. -/
def exponent? (exponent d : Nat) : Option Nat :=
  if exponent * 10 + d ≤ 0x7FFFFFFF then some (exponent * 10 + d) else none

/-- A point or an exponent may follow, and else the number has ended. -/
def pointOrMark (digits : Nat) (scale : Int) (b : UInt8) : Next :=
  match Char.ofUInt8 b with
  | '.' => .more (.point digits scale)
  | 'e' | 'E' => .more (.mark digits scale)
  | _ => .ended

/-- An exponent may follow, and else the number has ended. -/
def markOnly (digits : Nat) (scale : Int) (b : UInt8) : Next :=
  match Char.ofUInt8 b with
  | 'e' | 'E' => .more (.mark digits scale)
  | _ => .ended

/-- A digit behind the point. -/
def fractionDigit (digits : Nat) (scale : Int) (d : Nat) : Next :=
  match room? digits d with
  | some digits => .more (.fraction digits (scale - 1))
  | none => .more (.dropped digits scale)

/-- The first digit of an exponent. -/
def firstPower (digits : Nat) (scale : Int) (down : Bool) (b : UInt8) : Next :=
  match digit? b with
  | some d => .more (.power digits scale down d)
  | none => .fault .badNumber

/-- What the next byte does. -/
def next (stage : Stage) (b : UInt8) : Next :=
  match stage with
  | .sign =>
    match digit? b with
    | some 0 => .more .zero
    | some d => .more (.whole d)
    | none => .fault .badNumber
  | .zero =>
    match digit? b with
    | some _ => .fault .badNumber
    | none => pointOrMark 0 0 b
  | .whole digits =>
    match digit? b with
    | some d =>
      match room? digits d with
      | some digits => .more (.whole digits)
      | none => .more (.long digits 1)
    | none => pointOrMark digits 0 b
  | .long digits scale =>
    match digit? b with
    | some _ => .more (.long digits (scale + 1))
    | none => pointOrMark digits scale b
  | .point digits scale =>
    match digit? b with
    | some d => fractionDigit digits scale d
    | none => .fault .badNumber
  | .fraction digits scale =>
    match digit? b with
    | some d => fractionDigit digits scale d
    | none => markOnly digits scale b
  | .dropped digits scale =>
    match digit? b with
    | some _ => .more (.dropped digits scale)
    | none => markOnly digits scale b
  | .mark digits scale =>
    match Char.ofUInt8 b with
    | '+' => .more (.marked digits scale false)
    | '-' => .more (.marked digits scale true)
    | _ => firstPower digits scale false b
  | .marked digits scale down => firstPower digits scale down b
  | .power digits scale down exponent =>
    match digit? b with
    | some d =>
      match exponent? exponent d with
      | some exponent => .more (.power digits scale down exponent)
      | none => if digits ≠ 0 ∧ !down then .fault .hugeNumber else .more .vanished
    | none => .ended
  | .vanished =>
    match digit? b with
    | some _ => .more .vanished
    | none => .ended

end Stage

/-! ## The value -/

/-- The double nearest to `10 ^ n`. -/
def tenToThe (n : Nat) : Float :=
  Float.ofScientific 1 false n

/-- A double times a power of ten.  The powers up to `308` are doubles themselves; further down
the double is divided by `10 ^ 308` until the rest of the way is within reach or nothing is left.
There is no result beyond the largest double. -/
def scaleBy (x : Float) (power : Int) : Option Float :=
  if power.natAbs ≤ 308 then
    if 0 ≤ power then
      let y := x * tenToThe power.natAbs
      if y.isInf then none else some y
    else
      some (x / tenToThe power.natAbs)
  else if x == 0 then some x
  else if 0 ≤ power then none
  else scaleBy (x / tenToThe 308) (power + 308)
termination_by power.natAbs
decreasing_by omega

namespace Numeral

/-- A double with the sign of the number. -/
def signed (n : Numeral) (x : Float) : Number :=
  .double (if n.negative then -x else x).toBits

/-- The double of a significand and a power of ten. -/
def scaled (n : Numeral) (digits : Nat) (power : Int) : Except Cause Number :=
  match scaleBy (UInt64.ofNat digits).toFloat power with
  | some x => .ok (n.signed x)
  | none => .error .hugeNumber

/-- The number of a significand alone.  A negative one is an integer down to `-2 ^ 63`, and there
is no negative integer zero. -/
def plain (n : Numeral) (digits : Nat) : Number :=
  if !n.negative then .integer digits
  else if 0 < digits ∧ digits ≤ 0x8000000000000000 then .integer (-digits)
  else n.signed (UInt64.ofNat digits).toFloat

/-- The value of a number that ends here. -/
def value (n : Numeral) : Except Cause Number :=
  match n.stage with
  | .sign | .mark .. | .marked .. | .point .. => .error .unendedValue
  | .zero => .ok (n.plain 0)
  | .whole digits => .ok (n.plain digits)
  | .long digits scale | .fraction digits scale | .dropped digits scale => n.scaled digits scale
  | .power digits scale down exponent =>
    n.scaled digits (if down then scale - exponent else scale + exponent)
  | .vanished => .ok (n.signed 0)

/-- The number that begins with a byte. -/
def begin? (b : UInt8) : Option Numeral :=
  if Char.ofUInt8 b = '-' then some ⟨true, .sign⟩
  else
    match Stage.digit? b with
    | some 0 => some ⟨false, .zero⟩
    | some d => some ⟨false, .whole d⟩
    | none => none

end Numeral

end Scrape.Json
