import CodeGraph.Number.Double

/-!
Decimal numbers, and the way between them and doubles.

Reading takes a decimal number to the nearest double. Writing takes a double to the shortest decimal
number that reads back as it: of the decimal grids with 1, 2, … digits the first that has a point
inside the double's rounding interval wins, and on that grid the point nearest to the double.

* `Decimal`: `± digits · 10 ^ exponent`.
* `Decimal.toDouble`: the nearest double.
* `RoundingInterval`: a positive double with the ends of the interval of numbers that round to it.
* `Double.shortest`: the shortest decimal number, the two equally near ones being told apart by a
  `Tie`.
-/

namespace CodeGraph

/-- The number `± digits · 10 ^ exponent`. -/
structure Decimal where
  negative : Bool := false
  digits : Nat
  exponent : Int
deriving DecidableEq, Repr

/-! ### Reading -/

namespace Decimal

/-- The number of decimal digits of `n`, at least one. -/
def width (n : Nat) : Nat := (Nat.toDigits 10 n).length

/-- The double nearest to a decimal number. Beyond four hundred places on either side of the point
the nearest double is zero or infinity, whatever the digits, so no huge power of ten is ever formed.
-/
def toDouble (d : Decimal) : Double :=
  let leading := d.exponent + width d.digits
  if d.digits = 0 ∨ leading < -400 then .ofParts d.negative 0
  else if 400 < leading then .ofParts d.negative Double.infinityMagnitude
  else .ofRatio d.negative (d.digits * Nat.pow 10 d.exponent.toNat) (Nat.pow 10 (-d.exponent).toNat)

end Decimal

/-! ### Writing -/

/-- What is written when two decimal numbers of the fewest digits are equally near. -/
inductive Tie
  | up
  | even
deriving DecidableEq, Repr

/-- A positive rational `value / unit` with the ends `low / unit` and `high / unit` of the interval
of the numbers that round to it; `closed` tells whether the ends belong to the interval. -/
structure RoundingInterval where
  low : Nat
  value : Nat
  high : Nat
  unit : Nat
  closed : Bool
deriving Repr

namespace RoundingInterval

/-- The interval of the finite positive double `m · 2 ^ q`, in quarters of its last binary place.
Below a power of two the doubles are twice as dense, so there the lower end is half as far away. -/
def ofDouble (x : Double) : RoundingInterval :=
  let m := x.significand
  let q := x.binaryExponent - 2
  let scale := Nat.pow 2 q.toNat
  let nearer := m == Nat.pow 2 52 && x.binaryExponent != -1074
  { low := (4 * m - if nearer then 1 else 2) * scale
    value := 4 * m * scale
    high := (4 * m + 2) * scale
    unit := Nat.pow 2 (-q).toNat
    closed := m % 2 == 0 }

/-- Whether `c · 10 ^ e`, given as `num / den`, lies in the interval. -/
def has (r : RoundingInterval) (num den : Nat) : Bool :=
  if r.closed then r.low * den ≤ num * r.unit && num * r.unit ≤ r.high * den
  else r.low * den < num * r.unit && num * r.unit < r.high * den

/-- The `p` with `10 ^ p ≤ value < 10 ^ (p + 1)`. -/
def magnitude (r : RoundingInterval) : Int :=
  let guess := Double.logRatio r.value r.unit * 30103 / 100000
  let atLeast (p : Int) : Bool := r.unit * Nat.pow 10 p.toNat ≤ r.value * Nat.pow 10 (-p).toNat
  if atLeast (guess + 1) then guess + 1 else if atLeast guess then guess else guess - 1

/-- The multiple of `10 ^ e` in the interval that is nearest to the value, as its factor: one of the
two neighbours of the value on this grid, if either is in the interval. -/
def onGrid? (tie : Tie) (r : RoundingInterval) (e : Int) : Option Nat :=
  let up := Nat.pow 10 e.toNat
  let down := Nat.pow 10 (-e).toNat
  let below := r.value * down / (r.unit * up)
  let above := below + 1
  match r.has (below * up) down, r.has (above * up) down with
  | false, false => none
  | true, false => some below
  | false, true => some above
  | true, true =>
    let gapBelow := r.value * down - below * up * r.unit
    let gapAbove := above * up * r.unit - r.value * down
    if gapBelow < gapAbove then some below
    else if gapAbove < gapBelow then some above
    else match tie with
      | .up => some above
      | .even => some (if below % 2 = 0 then below else above)

/-- The first hit on the grids with `digits`, `digits + 1`, … digits, as factor and exponent;
`grids` bounds how many are tried. -/
def search (tie : Tie) (r : RoundingInterval) (magnitude : Int) : (grids digits : Nat) → Nat × Int
  | 0, digits => (r.value / r.unit, digits)
  | grids + 1, digits =>
    let e := magnitude - digits + 1
    match r.onGrid? tie e with
    | some c => (c, e)
    | none => search tie r magnitude grids (digits + 1)

end RoundingInterval

/-- The same number without zeros at the end of its digits; `steps` bounds their number. -/
def Decimal.trimmed : (steps : Nat) → Decimal → Decimal
  | 0, d => d
  | steps + 1, d =>
    if d.digits % 10 = 0 ∧ d.digits ≠ 0
    then trimmed steps { d with digits := d.digits / 10, exponent := d.exponent + 1 } else d

/-- The decimal number of fewest digits that reads back as the finite double `x`, and the nearest of
those. Seventeen digits always suffice. -/
def Double.shortest (tie : Tie) (x : Double) : Decimal :=
  if x.isZero then ⟨x.isNegative, 0, 0⟩
  else
    let r := RoundingInterval.ofDouble x
    let (c, e) := r.search tie r.magnitude 17 1
    Decimal.trimmed 20 ⟨x.isNegative, c, e⟩

/-! ### Small facts -/

example : (Decimal.mk false 15 (-1)).toDouble = ⟨0x3ff8000000000000⟩ := by decide +kernel

/-- A half of the last place goes to the even neighbour or upwards, as asked. -/
example : (Double.shortest .even ⟨0x4310000000000001⟩).digits = 11258999068426242
    ∧ (Double.shortest .up ⟨0x4310000000000001⟩).digits = 11258999068426243 := by decide +kernel

example : (Double.shortest .up ⟨1⟩) = ⟨false, 5, -324⟩ := by decide +kernel

end CodeGraph
