import CodeGraph.Expr.Value

/-!
The meaning of expressions.

An expression has a value against a store and a lookup from variables to nodes, and it holds if that
value is true. There is no error and no third truth value: a comparison that makes no sense is
false, and a logical operator takes everything but true for false.

* `Expr.value`: the value of an expression; a function call has none.
* `Expr.holds`: the truth of an expression.
* `Expr.holds_connective`, …: truth, operator by operator.
-/

namespace CodeGraph

/-- The nodes that variables are bound to. -/
abbrev Lookup := String → Option NodeId

def Value.isTrue : Value → Bool
  | .property (.boolean b) => b
  | _ => false

namespace Expr

/-- The value of an expression. A variable that is bound to no node is null, and so are its
properties. -/
def value (s : Store) (lookup : Lookup) : Expr → Value
  | literal p => .ofProperty p
  | var name => .ofNode? (lookup name)
  | property name key => (Value.ofNode? (lookup name)).propertyOf s key
  | call _ _ => .null
  | binary (.connective op) left right =>
    .ofBool (op.apply (left.value s lookup).isTrue (right.value s lookup).isTrue)
  | binary (.comparison op) left right =>
    .ofBool ((left.value s lookup).compares op (right.value s lookup))
  | binary (.text op) left right => .ofBool ((left.value s lookup).tests op (right.value s lookup))
  | unary .not operand => .ofBool !(operand.value s lookup).isTrue
  | unary .isNull operand => .ofBool (operand.value s lookup).isNull
  | unary .isNotNull operand => .ofBool !(operand.value s lookup).isNull

/-- Whether an expression holds. -/
def holds (s : Store) (lookup : Lookup) (e : Expr) : Bool := (e.value s lookup).isTrue

/-- The truth of an expression that speaks about no node. -/
def holdsConstantly (s : Store) (e : Expr) : Bool := e.holds s (fun _ => none)

/-! ### Truth, operator by operator -/

@[simp] theorem isTrue_ofBool (b : Bool) : (Value.ofBool b).isTrue = b := rfl

@[simp] theorem holds_connective (s : Store) (lookup : Lookup) (op : Connective)
    (left right : Expr) :
    (binary (.connective op) left right).holds s lookup
      = op.apply (left.holds s lookup) (right.holds s lookup) := rfl

@[simp] theorem holds_comparison (s : Store) (lookup : Lookup) (op : Comparison)
    (left right : Expr) :
    (binary (.comparison op) left right).holds s lookup
      = (left.value s lookup).compares op (right.value s lookup) := rfl

@[simp] theorem holds_text (s : Store) (lookup : Lookup) (op : TextTest) (left right : Expr) :
    (binary (.text op) left right).holds s lookup
      = (left.value s lookup).tests op (right.value s lookup) := rfl

@[simp] theorem holds_not (s : Store) (lookup : Lookup) (operand : Expr) :
    (unary .not operand).holds s lookup = !operand.holds s lookup := rfl

@[simp] theorem holds_isNull (s : Store) (lookup : Lookup) (operand : Expr) :
    (unary .isNull operand).holds s lookup = (operand.value s lookup).isNull := rfl

@[simp] theorem holds_isNotNull (s : Store) (lookup : Lookup) (operand : Expr) :
    (unary .isNotNull operand).holds s lookup = !(operand.value s lookup).isNull := rfl

end Expr
end CodeGraph
