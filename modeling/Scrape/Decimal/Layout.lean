/-
Decimals as text.

A decimal is written with its digits in place, or as one digit before the
point with a power of ten behind it.  Which of the two depends on where its
leading digit stands; a `Layout` says where the first form begins and ends.
-/
import Scrape.Decimal.Shortest

namespace Scrape

/-- The digits of a natural number in base ten. -/
def Decimal.natDigits (n : Nat) : List Char :=
  Nat.toDigits 10 n

/-- An integer in base ten. -/
def Decimal.intDigits (n : Int) : List Char :=
  if n < 0 then '-' :: natDigits n.natAbs else natDigits n.natAbs

/-- The powers of ten of a leading digit between which a decimal is written in place. -/
structure Layout where
  least : Int
  greatest : Int

namespace Layout

/-- The digits in place, with at least one digit on either side of the point. -/
def inPlace (digits : List Char) (lead : Int) : List Char :=
  if lead < 0 then
    '0' :: '.' :: List.replicate (-lead - 1).toNat '0' ++ digits
  else
    let whole := (lead + 1).toNat
    let fraction := digits.drop whole
    digits.take whole ++ List.replicate (whole - digits.length) '0' ++
      '.' :: (if fraction.isEmpty then ['0'] else fraction)

/-- One digit, the others behind a point if there are any, and a power of ten with its sign. -/
def withPower (digits : List Char) (lead : Int) : List Char :=
  let fraction := digits.drop 1
  digits.take 1 ++ (if fraction.isEmpty then [] else '.' :: fraction) ++
    'e' :: (if lead < 0 then '-' else '+') :: Decimal.natDigits lead.natAbs

/-- The text of a decimal. -/
def render (l : Layout) (d : Decimal) : List Char :=
  let digits := Decimal.natDigits d.digits
  let lead := d.exponent + digits.length - 1
  if l.least ≤ lead ∧ lead ≤ l.greatest then inPlace digits lead else withPower digits lead

/-- The text of a finite double: its sign and its shortest decimal. -/
def renderDouble (l : Layout) (bits : UInt64) : List Char :=
  let m := Magnitude.ofBits bits
  let magnitude := l.render (if m.mantissa = 0 then ⟨0, 0⟩ else m.shortest)
  if bits >>> 63 = 1 then '-' :: magnitude else magnitude

end Layout

end Scrape
