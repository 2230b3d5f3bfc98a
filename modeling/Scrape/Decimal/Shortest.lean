/-
The shortest decimal of a double.

A double stands for every real that rounds to it.  Of the decimals in that
interval this module finds the one with the fewest digits, and of those the
nearest to the double, in exact arithmetic on natural numbers.

A positive double is `mantissa * 2 ^ exponent`.  Its interval reaches half a
step to either side; where the mantissa is the least of its binade the step
below is half as long.  The ends belong to the interval exactly when the
mantissa is even.  All is counted in quarters of a step, so that nothing is
ever divided.
-/

namespace Scrape

/-- The decimal `digits * 10 ^ exponent`. -/
structure Decimal where
  digits : Nat
  exponent : Int
deriving DecidableEq, Repr

/-- The magnitude of a finite double, `mantissa * 2 ^ exponent`, and whether its lower neighbour
is only half a step away. -/
structure Magnitude where
  mantissa : Nat
  exponent : Int
  narrowBelow : Bool
deriving DecidableEq, Repr

namespace Magnitude

/-- The bit of a mantissa that a bit pattern leaves out, `2 ^ 52`. -/
def hiddenBit : Nat := 0x10000000000000

/-- The magnitude that a bit pattern stands for. -/
def ofBits (bits : UInt64) : Magnitude :=
  let fraction : Nat := bits.toNat % hiddenBit
  let biased : Nat := (bits >>> 52).toNat % 2048
  if biased = 0 then
    ⟨fraction, -1074, false⟩
  else
    ⟨hiddenBit + fraction, (biased : Int) - 1075, decide (fraction = 0 ∧ 1 < biased)⟩

/-- `n / unit` as a whole number, the nearest one, and the even one where two are as near. -/
def roundDiv (n unit : Nat) : Nat :=
  let below := n / unit
  let twice := 2 * (n % unit)
  if twice < unit ∨ twice = unit ∧ below % 2 = 0 then below else below + 1

/-- The magnitude of the double that a natural number other than 0 is rounded to: its 53 bits from
the leading one on. -/
def ofNat (n : Nat) : Magnitude :=
  let exponent : Int := n.log2 - 52
  let mantissa := roundDiv (n * Nat.pow 2 (-exponent).toNat) (Nat.pow 2 exponent.toNat)
  if mantissa = 2 * hiddenBit then ⟨hiddenBit, exponent + 1, true⟩
  else ⟨mantissa, exponent, decide (mantissa = hiddenBit)⟩

/-! ## A grid of decimals

On the grid of the multiples of `10 ^ k`, a quarter step of the double is
`scale / unit` grid steps. -/

/-- The numerator of a quarter step in grid steps. -/
def scale (m : Magnitude) (k : Int) : Nat :=
  Nat.pow 2 (m.exponent - 2).toNat * Nat.pow 10 (-k).toNat

/-- The denominator of a quarter step in grid steps. -/
def unit (m : Magnitude) (k : Int) : Nat :=
  Nat.pow 2 (2 - m.exponent).toNat * Nat.pow 10 k.toNat

/-- Whether the double is the one that `d * 10 ^ k` rounds to. -/
def holds (m : Magnitude) (k : Int) (d : Nat) : Bool :=
  let low := (4 * m.mantissa - if m.narrowBelow then 1 else 2) * m.scale k
  let high := (4 * m.mantissa + 2) * m.scale k
  let point := d * m.unit k
  if m.mantissa % 2 = 0 then low ≤ point && point ≤ high
  else low < point && point < high

/-- The nearer of `d` and `d + 1` to the double, where it lies between them; the even one when
it lies halfway. -/
def nearer (m : Magnitude) (k : Int) (d : Nat) : Nat :=
  let beyond := 2 * (4 * m.mantissa * m.scale k - d * m.unit k)
  if beyond < m.unit k then d
  else if m.unit k < beyond then d + 1
  else if d % 2 = 0 then d else d + 1

/-- The best point of the grid in the interval.  If any point of a grid lies there, one of the
double's two neighbours on the grid does. -/
def onGrid? (m : Magnitude) (k : Int) : Option Decimal :=
  let d := 4 * m.mantissa * m.scale k / m.unit k
  match m.holds k d, m.holds k (d + 1) with
  | true, true => some ⟨m.nearer k d, k⟩
  | true, false => some ⟨d, k⟩
  | false, true => some ⟨d + 1, k⟩
  | false, false => none

/-- A power of ten that exceeds the double.  `0.30103` lies just above the decimal logarithm of
two. -/
def top (m : Magnitude) : Int :=
  (m.exponent + Int.ofNat m.mantissa.log2 + 1) * 30103 / 100000 + 1

/-- The decimal with the fewest digits that rounds to the double: the first hit from the coarsest
grid on.  Seventeen digits always suffice. -/
def shortest (m : Magnitude) : Decimal :=
  ((List.range 20).findSome? fun i => m.onGrid? (m.top - Int.ofNat i)).getD ⟨0, 0⟩

end Magnitude

end Scrape
