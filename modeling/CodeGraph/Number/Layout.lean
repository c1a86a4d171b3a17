import CodeGraph.Number.Decimal

/-!
How a double is written.

A layout holds the decisions that formats make differently about the same shortest digits: up to
where the point is written among the digits, whether a whole number keeps a zero after its point,
whether an exponent above zero carries a sign, and what stands for the values that have no digits.

* `Layout`: these decisions.
* `Layout.write`: the text of a double.
-/

namespace CodeGraph

/-- The decisions of a format about the text of a double. -/
structure Layout where
  /-- Which of two equally near shortest numbers is written. -/
  tie : Tie
  /-- The number `0.d₁d₂… · 10 ^ p` is written with its point in place if `p` is above this bound,
  -/
  above : Option Int
  /-- and at most this one; otherwise with an exponent. -/
  upTo : Option Int
  /-- What a whole number with its point in place ends with. -/
  wholeEnding : String
  /-- The sign of an exponent that is not negative. -/
  exponentSign : String
  nan : String
  infinity : String

namespace Layout

/-- Whether a number `0.d₁d₂… · 10 ^ p` has its point in place. -/
def isPositional (l : Layout) (p : Int) : Bool :=
  l.above.all (· < p) && l.upTo.all (p ≤ ·)

/-- The digits with the point after the first `p` of them, zeros filling the gap on either side. -/
def positional (l : Layout) (digits : List Char) (p : Int) : String :=
  let count := digits.length
  if p ≤ 0 then "0." ++ String.ofList (List.replicate (-p).toNat '0' ++ digits)
  else if count ≤ p.toNat then
    String.ofList (digits ++ List.replicate (p.toNat - count) '0') ++ l.wholeEnding
  else String.ofList (digits.take p.toNat) ++ "." ++ String.ofList (digits.drop p.toNat)

/-- One digit, the others after a point, and the exponent. -/
def scientific (l : Layout) (digits : List Char) (p : Int) : String :=
  let lead := String.ofList (digits.take 1)
  let rest := digits.drop 1
  let fraction := if rest.isEmpty then "" else "." ++ String.ofList rest
  lead ++ fraction ++ "e" ++ (if 1 ≤ p then l.exponentSign else "") ++ toString (p - 1)

/-- The text of a decimal number. -/
def writeDecimal (l : Layout) (d : Decimal) : String :=
  let sign := if d.negative then "-" else ""
  if d.digits = 0 then sign ++ "0" ++ l.wholeEnding
  else
    let digits := Nat.toDigits 10 d.digits
    let p := d.exponent + digits.length
    sign ++ if l.isPositional p then l.positional digits p else l.scientific digits p

/-- The text of a double: its shortest digits, laid out. -/
def write (l : Layout) (x : Double) : String :=
  if x.isNaN then l.nan
  else if x.isInfinite then (if x.isNegative then "-" else "") ++ l.infinity
  else l.writeDecimal (x.shortest l.tie)

end Layout
end CodeGraph
