import CodeGraph.Expr
import CodeGraph.Store

/-!
The values of operands, and the relations between them.

An operand is a node, a property other than null, or null. A comparison holds only between values
that can be compared: two nodes for being the same or different, two properties of one class. In
every other case, and whenever a value is absent, it fails.

* `Value.ofProperty`: the value of a property, which is null for the null property.
* `Value.propertyOf`: the property of the node that a value is.
* `Value.compares`, `Value.tests`: the comparisons and the text tests.
-/

namespace CodeGraph

/-- The value of an operand. -/
inductive Value
  | node (id : NodeId)
  | property (value : Property)
  | null
deriving DecidableEq, Repr, Inhabited

namespace Value

def ofProperty : Property → Value
  | .null => null
  | p => property p

def ofNode? : Option NodeId → Value
  | some id => node id
  | none => null

def ofBool (b : Bool) : Value := property (.boolean b)

def isNull : Value → Bool
  | null => true
  | _ => false

def property? : Value → Option Property
  | property p => some p
  | _ => none

def node? : Value → Option NodeId
  | node id => some id
  | _ => none

/-- The property under `key` of the node that a value is; anything but a node has none. -/
def propertyOf (s : Store) (key : String) : Value → Value
  | node id =>
    match s.property? id key with
    | some p => ofProperty p
    | none => null
  | _ => null

end Value

/-! ### Comparisons -/

/-- Whether an order of two values agrees with a comparison. -/
def Comparison.admits : Comparison → Ordering → Bool
  | .eq, o => o == .eq
  | .ne, o => o != .eq
  | .lt, o => o == .lt
  | .le, o => o != .gt
  | .gt, o => o == .gt
  | .ge, o => o != .lt

/-- Comparisons of properties. Being different asks for values of one class. -/
def Property.compares (op : Comparison) (l r : Property) : Bool :=
  match op with
  | .eq => l.equal? r == some true
  | .ne => l.sameClass r && l.equal? r == some false
  | op => (l.order? r).any op.admits

/-- Comparisons of operands: nodes are the same or different, properties compare by their values,
and nothing else compares. -/
def Value.compares (op : Comparison) : Value → Value → Bool
  | .node l, .node r =>
    match op with
    | .eq => l == r
    | .ne => l != r
    | _ => false
  | .property l, .property r => l.compares op r
  | _, _ => false

/-! ### Tests of texts -/

/-- Whether `part` occurs somewhere in `text`. -/
def hasPart (part : List Char) : List Char → Bool
  | [] => part.isEmpty
  | c :: rest => part.isPrefixOf (c :: rest) || hasPart part rest

/-- The tests of one text against another. -/
def TextTest.holds (op : TextTest) (text part : String) : Bool :=
  match op with
  | .startsWith => part.toList.isPrefixOf text.toList
  | .endsWith => part.toList.isSuffixOf text.toList
  | .contains => hasPart part.toList text.toList

/-- The text tests of operands, which hold of texts only. -/
def Value.tests (op : TextTest) (l r : Value) : Bool :=
  match l, r with
  | .property (.string text), .property (.string part) => op.holds text part
  | _, _ => false

def Connective.apply : Connective → Bool → Bool → Bool
  | .and, l, r => l && r
  | .or, l, r => l || r
  | .xor, l, r => l != r

end CodeGraph
