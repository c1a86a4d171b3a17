import CodeGraph.Number.Layout

/-!
Property values of nodes, and how they compare.

A property is a text, an integer, a double, a truth value or null. Integers and doubles are both
numbers and compare with each other; all other classes of values keep apart, and null compares with
nothing.

* `Property.equal?`: equality across types, unknown as soon as one side is null.
* `Property.order?`: the order inside a class of values, absent between classes and for a NaN.
* `Property.strictEqual`: equality of type and content, in which a NaN differs from itself.
* `Property.display`: the text of a property in a message.
-/

namespace CodeGraph

/-- The value of a node's property. -/
inductive Property
  | string (text : String)
  | integer (value : Int64)
  | float (value : Double)
  | boolean (value : Bool)
  | null
deriving DecidableEq, Repr, Inhabited

namespace Property

/-! ### Views -/

def isNull : Property → Bool
  | null => true
  | _ => false

def string? : Property → Option String
  | string text => some text
  | _ => none

def integer? : Property → Option Int64
  | integer value => some value
  | _ => none

def float? : Property → Option Double
  | float value => some value
  | _ => none

def boolean? : Property → Option Bool
  | boolean value => some value
  | _ => none

/-- A number as a double; an integer is taken to the nearest one. -/
def number? : Property → Option Double
  | integer value => some (.ofInt value.toInt)
  | float value => some value
  | _ => none

def typeName : Property → String
  | string _ => "String"
  | integer _ => "Integer"
  | float _ => "Float"
  | boolean _ => "Boolean"
  | null => "Null"

/-! ### Making properties -/

/-- The integer property of an integer, which wraps around at 64 bits. -/
def ofInt (value : Int) : Property := integer (Int64.ofInt value)

/-! ### Comparison -/

/-- Two integers compare exactly, two numbers of which one is a double as doubles. -/
def equal? : Property → Property → Option Bool
  | null, _ | _, null => none
  | integer l, integer r => some (l == r)
  | string l, string r => some (l == r)
  | boolean l, boolean r => some (l == r)
  | l, r =>
    match l.number?, r.number? with
    | some x, some y => some (x.equal y)
    | _, _ => some false

/-- Texts are ordered by their characters, false comes before true. -/
def order? : Property → Property → Option Ordering
  | integer l, integer r => some (compare l.toInt r.toInt)
  | string l, string r => some (compareOfLessAndEq l r)
  | boolean l, boolean r => some (compare l.toNat r.toNat)
  | l, r =>
    match l.number?, r.number? with
    | some x, some y => x.compare? y
    | _, _ => none

/-- The classes of values that compare with each other. -/
def sameClass : Property → Property → Bool
  | string _, string _ | boolean _, boolean _ | null, null => true
  | l, r => l.number?.isSome && r.number?.isSome

def strictEqual : Property → Property → Bool
  | float l, float r => l.equal r
  | l, r => l == r

/-! ### Text -/

/-- Numbers in messages: every digit in place, no point after a whole number, and of two equally
near shortest numbers the greater. -/
def plainNumber : Layout where
  tie := .up
  above := none
  upTo := none
  wholeEnding := ""
  exponentSign := ""
  nan := "NaN"
  infinity := "inf"

/-- A text stands between quotes, unchanged. -/
def display : Property → String
  | string text => "\"" ++ text ++ "\""
  | integer value => toString value.toInt
  | float value => plainNumber.write value
  | boolean value => if value then "true" else "false"
  | null => "null"

/-! ### Small facts -/

@[simp] theorem equal?_null_left (p : Property) : equal? null p = none := by cases p <;> rfl

@[simp] theorem equal?_null_right (p : Property) : equal? p null = none := by cases p <;> rfl

@[simp] theorem order?_null_left (p : Property) : order? null p = none := by cases p <;> rfl

@[simp] theorem order?_null_right (p : Property) : order? p null = none := by cases p <;> rfl

end Property
end CodeGraph
