/-!
Binary floating-point numbers of 64 bits, kept as their bits.

A double is a sign, eleven bits of exponent and fifty-two bits of fraction. Everything this library
asks of one is answered by integer arithmetic on these parts, so that nothing here rests on a
machine operation that a proof cannot look into.

* `Double.magnitude`, `Double.isNegative`: the two parts of the word; magnitudes are ordered like
  the absolute values that they stand for.
* `Double.compare?`, `Double.equal`: the numeric order, in which both zeros are one number and a NaN
  is unrelated to everything.
* `Double.significand`, `Double.binaryExponent`: a finite double is `± significand · 2 ^
  binaryExponent`.
* `Double.ofRatio`: the double nearest to a quotient, a half going to the even significand.
* `Double.ofInt`: the double nearest to an integer.
-/

namespace CodeGraph

/-- A double, given by the 64 bits of its word. -/
structure Double where
  bits : UInt64
deriving DecidableEq, Repr, Inhabited

namespace Double

/-! ### The parts of the word -/

/-- The magnitude at which the finite doubles end: infinity. -/
def infinityMagnitude : Nat := 2047 * Nat.pow 2 52

/-- The word without its sign bit. -/
def magnitude (x : Double) : Nat := x.bits.toNat % Nat.pow 2 63

def isNegative (x : Double) : Bool := Nat.pow 2 63 ≤ x.bits.toNat

def isNaN (x : Double) : Bool := infinityMagnitude < x.magnitude

def isInfinite (x : Double) : Bool := x.magnitude == infinityMagnitude

def isZero (x : Double) : Bool := x.magnitude == 0

/-- The double of a sign and a magnitude. -/
def ofParts (negative : Bool) (magnitude : Nat) : Double :=
  ⟨UInt64.ofNat (magnitude % Nat.pow 2 63 + if negative then Nat.pow 2 63 else 0)⟩

/-- The integer `m` of a finite double `± m · 2 ^ q`; below the normal range the leading bit is
absent. -/
def significand (x : Double) : Nat :=
  if x.magnitude < Nat.pow 2 52 then x.magnitude else Nat.pow 2 52 + x.magnitude % Nat.pow 2 52

/-- The exponent `q` of a finite double `± m · 2 ^ q`. -/
def binaryExponent (x : Double) : Int :=
  if x.magnitude < Nat.pow 2 52 then -1074 else (x.magnitude / Nat.pow 2 52 : Nat) - 1075

/-! ### The numeric order -/

/-- The place of a number among the doubles: magnitudes count upwards from zero, those of negative
numbers downwards, and both zeros share one place. -/
def place (x : Double) : Int := if x.isNegative then -(x.magnitude : Int) else x.magnitude

/-- The numeric order of two doubles, absent if one of them is a NaN. -/
def compare? (x y : Double) : Option Ordering :=
  if x.isNaN || y.isNaN then none else some (compare x.place y.place)

/-- Numeric equality: zeros are equal, and a NaN differs from everything. -/
def equal (x y : Double) : Bool := x.compare? y == some .eq

/-! ### Rounding to nearest -/

/-- The integer nearest to `num / den`; a half goes to the even neighbour. -/
def roundRatio (num den : Nat) : Nat :=
  let quotient := num / den
  let twice := 2 * (num % den)
  if twice < den then quotient
  else if den < twice then quotient + 1
  else quotient + quotient % 2

/-- The `k` with `2 ^ k ≤ num / den < 2 ^ (k + 1)`, for positive arguments. -/
def logRatio (num den : Nat) : Int :=
  let guess : Int := (num.log2 : Int) - den.log2
  if den * Nat.pow 2 guess.toNat ≤ num * Nat.pow 2 (-guess).toNat then guess else guess - 1

/-- The magnitude of the double nearest to `num / den`. A significand that rounds up to the next
power of two carries into the exponent, and past the largest double the result is infinity. -/
def magnitudeOfRatio (num den : Nat) : Nat :=
  if num = 0 then 0
  else
    let q := max (logRatio num den - 52) (-1074)
    let m := roundRatio (num * Nat.pow 2 (-q).toNat) (den * Nat.pow 2 q.toNat)
    min ((q + 1074).toNat * Nat.pow 2 52 + m) infinityMagnitude

/-- The double nearest to `± num / den`. -/
def ofRatio (negative : Bool) (num den : Nat) : Double :=
  ofParts negative (magnitudeOfRatio num den)

/-- The double nearest to an integer. -/
def ofInt (i : Int) : Double := ofRatio (decide (i < 0)) i.natAbs 1

/-! ### Small facts -/

@[simp] theorem place_ofParts_zero (negative : Bool) : (ofParts negative 0).place = 0 := by
  cases negative <;> decide

theorem equal_zeros : equal (ofParts true 0) (ofParts false 0) = true := by decide

theorem compare?_nan (x : Double) (h : x.isNaN = true) (y : Double) : x.compare? y = none := by
  simp [compare?, h]

end Double
end CodeGraph
