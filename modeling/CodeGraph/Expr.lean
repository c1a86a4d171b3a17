import CodeGraph.Property

/-!
Expressions of queries.

An expression speaks about the nodes that a match binds to its variables: it compares their
properties with each other and with literals, and joins comparisons by logical operators. Function
calls can be written but never run.

* `BinaryOp`, `UnaryOp`: the operators, sorted by what they work on.
* `BinaryOp.level`: how tightly a binary operator binds.
* `Expr.vars`: the variables of an expression in the order of first use.
* `Expr.function?`: the first function call outside the arguments of another.
-/

namespace CodeGraph

/-! ### Operators -/

/-- Comparisons of two values. -/
inductive Comparison
  | eq
  | ne
  | lt
  | le
  | gt
  | ge
deriving DecidableEq, Repr

/-- Tests of one text against another. -/
inductive TextTest
  | startsWith
  | endsWith
  | contains
deriving DecidableEq, Repr

/-- Operators on truth values. -/
inductive Connective
  | and
  | or
  | xor
deriving DecidableEq, Repr

/-- Operators between two expressions. -/
inductive BinaryOp
  | comparison (op : Comparison)
  | text (op : TextTest)
  | connective (op : Connective)
deriving DecidableEq, Repr

namespace BinaryOp

def isComparison : BinaryOp → Bool
  | comparison _ => true
  | _ => false

/-- The word or sign of an operator. -/
def name : BinaryOp → String
  | comparison .eq => "="
  | comparison .ne => "<>"
  | comparison .lt => "<"
  | comparison .le => "<="
  | comparison .gt => ">"
  | comparison .ge => ">="
  | text .startsWith => "STARTS WITH"
  | text .endsWith => "ENDS WITH"
  | text .contains => "CONTAINS"
  | connective .and => "AND"
  | connective .or => "OR"
  | connective .xor => "XOR"

/-- Operators of a higher level bind tighter. Negation has level four and takes in what binds
tighter than conjunction; the tests for null stand above all binary operators. -/
def level : BinaryOp → Nat
  | connective .or => 1
  | connective .xor => 2
  | connective .and => 3
  | comparison _ => 5
  | text _ => 5

end BinaryOp

/-- Operators on one expression. -/
inductive UnaryOp
  | not
  | isNull
  | isNotNull
deriving DecidableEq, Repr

namespace UnaryOp

def name : UnaryOp → String
  | not => "NOT"
  | isNull => "IS NULL"
  | isNotNull => "IS NOT NULL"

def level : UnaryOp → Nat
  | not => 4
  | isNull => 6
  | isNotNull => 6

end UnaryOp

/-! ### Expressions -/

/-- An expression over the variables of a pattern. -/
inductive Expr
  | property (name key : String)
  | literal (value : Property)
  | var (name : String)
  | binary (op : BinaryOp) (left right : Expr)
  | unary (op : UnaryOp) (operand : Expr)
  | call (function : String) (arguments : List Expr)
deriving Repr, Inhabited

namespace Expr

def and (left right : Expr) : Expr := binary (.connective .and) left right

def equals (left right : Expr) : Expr := binary (.comparison .eq) left right

/-- A name at the end of a list, unless it is there already. -/
def noteName (names : List String) (name : String) : List String :=
  if name ∈ names then names else names ++ [name]

mutual

/-- The names met so far, followed by the new ones of an expression. -/
def collect (names : List String) : Expr → List String
  | property name _ => noteName names name
  | literal _ => names
  | var name => noteName names name
  | binary _ left right => collect (collect names left) right
  | unary _ operand => collect names operand
  | call _ arguments => collectAll names arguments

/-- The names met so far, followed by the new ones of several expressions. -/
def collectAll (names : List String) : List Expr → List String
  | [] => names
  | e :: rest => collectAll (collect names e) rest

end

/-- The variables of an expression, each at its first use. -/
def vars (e : Expr) : List String := collect [] e

/-- Whether an expression speaks about no node at all. -/
def isConstant (e : Expr) : Bool := e.vars.isEmpty

/-- The first function that an expression calls; calls inside the arguments of a call come after it.
-/
def function? : Expr → Option String
  | call function _ => some function
  | binary _ left right => left.function?.or right.function?
  | unary _ operand => operand.function?
  | _ => none

end Expr
end CodeGraph
