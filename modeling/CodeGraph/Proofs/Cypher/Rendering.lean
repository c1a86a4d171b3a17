import CodeGraph.Proofs.Cypher.Cutting
import CodeGraph.Query

/-!
Writing queries down.

A query that matches one path, filters it and returns a variable is written as a text: an operator
application in parentheses of its own, one blank between words. How an edge is drawn is up to the
writer where the language leaves a choice: an edge without a group may have empty brackets, and one
of both directions may have two heads or none.

* `isIdentifier`, `isVariable`: the words that labels, groups and keys may be, and those that
  variables may be.
* `Expr.text`, `NodePattern.text`, `EdgePattern.text`, `PathPattern.text`, `matchingText`: the
  texts.
* `Expr.isPlain`, `PathPattern.isPlain`: what can be made of names, groups, labels, integers, truth
  values and null.
* `Expr.isPlain_induction`: induction on plain expressions.
-/

namespace CodeGraph

/-! ### Names -/

/-- A letter or an underscore, and then letters, digits and underscores. -/
def isIdentifier (word : String) : Bool :=
  match word.toList with
  | c :: rest => Cypher.isWordStart c && rest.all Cypher.isWordPart
  | [] => false

/-- An identifier that is no keyword, whatever the case of its letters. -/
def isVariable (word : String) : Bool := isIdentifier word && (Cypher.Keyword.ofWord? word).isNone

lemma isIdentifier_of_isVariable {word : String} (h : isVariable word) : isIdentifier word := by
  rw [isVariable, Bool.and_eq_true] at h
  exact h.1

/-! ### Expressions -/

/-- Integers, truth values and null. -/
def Property.isPlain : Property → Bool
  | integer _ | boolean _ | null => true
  | string _ | float _ => false

namespace Expr

/-- Properties, variables and plain literals, joined by operators. -/
def isPlain : Expr → Bool
  | property name key => isVariable name && isIdentifier key
  | literal value => value.isPlain
  | var name => isVariable name
  | binary _ left right => left.isPlain && right.isPlain
  | unary _ operand => operand.isPlain
  | call _ _ => false

/-- Plain expressions are built from plain ones. -/
lemma isPlain_induction {P : (e : Expr) → e.isPlain → Prop}
    (property : ∀ name key (hname : isVariable name) (hkey : isIdentifier key),
      P (property name key) (Bool.and_eq_true_iff.2 ⟨hname, hkey⟩))
    (integer : ∀ value, P (literal (.integer value)) rfl)
    (boolean : ∀ value, P (literal (.boolean value)) rfl)
    (null : P (literal .null) rfl) (var : ∀ name (hname : isVariable name), P (var name) hname)
    (binary : ∀ op left right (hleft : left.isPlain) (hright : right.isPlain), P left hleft →
      P right hright →
      P (binary op left right) (Bool.and_eq_true_iff.2 ⟨hleft, hright⟩))
    (unary : ∀ op operand (h : operand.isPlain), P operand h → P (unary op operand) h) (e : Expr)
    (he : e.isPlain) :
    P e he := by
  induction e using isPlain.induct with
  | case1 name key =>
      exact property name key (Bool.and_eq_true_iff.1 he).1 (Bool.and_eq_true_iff.1 he).2
  | case2 value =>
      cases value with
      | integer value => exact integer value
      | boolean value => exact boolean value
      | null => exact null
      | string text => cases he
      | float value => cases he
  | case3 name => exact var name he
  | case4 op left right ihl ihr =>
      obtain ⟨hleft, hright⟩ := Bool.and_eq_true_iff.1 he
      exact binary op left right hleft hright (ihl hleft) (ihr hright)
  | case5 op operand ih => exact unary op operand he (ih he)
  | case6 function arguments => cases he

mutual

/-- An expression with parentheses around every application of an operator. -/
def text : Expr → String
  | property name key => name ++ "." ++ key
  | literal value => value.display
  | var name => name
  | binary op left right => "(" ++ left.text ++ " " ++ op.name ++ " " ++ right.text ++ ")"
  | unary .not operand => "(NOT " ++ operand.text ++ ")"
  | unary op operand => "(" ++ operand.text ++ " " ++ op.name ++ ")"
  | call function arguments => function ++ "(" ++ argumentsText arguments ++ ")"

/-- Expressions between commas. -/
def argumentsText : List Expr → String
  | [] => ""
  | [e] => e.text
  | e :: rest => e.text ++ ", " ++ argumentsText rest

end

end Expr

/-! ### Paths -/

/-- How an edge is drawn where there is a choice: with brackets though it has no group, with both
heads though it has no direction. -/
structure Drawing where
  brackets : Bool
  heads : Bool
deriving DecidableEq, Repr

namespace NodePattern

/-- A node with its variable, if it has one, and its labels. -/
def text (n : NodePattern) : String :=
  "(" ++ n.name.getD "" ++ String.join (n.labels.map fun l => ":" ++ l.text) ++ ")"

/-- A node that asks for no properties. -/
def isPlain (n : NodePattern) : Bool :=
  n.name.all isVariable && n.labels.all (fun l => isIdentifier l.text) && n.properties.isNone

end NodePattern

namespace EdgePattern

/-- The heads on the left and on the right of an edge. -/
def heads (drawing : Drawing) : PatternDirection → Bool × Bool
  | .outgoing => (false, true)
  | .incoming => (true, false)
  | .both => (drawing.heads, drawing.heads)

def groupsText : List Group → String
  | [] => ""
  | g :: rest => ":" ++ g.name ++ String.join (rest.map fun h => "|" ++ h.name)

/-- What stands between the two strokes of an edge. -/
def detailText (drawing : Drawing) (e : EdgePattern) : String :=
  if e.groups.isEmpty && !drawing.brackets then "" else "[" ++ groupsText e.groups ++ "]"

/-- An edge with its groups. -/
def text (drawing : Drawing) (e : EdgePattern) : String :=
  (if (heads drawing e.direction).1 then "<" else "") ++ "-" ++ e.detailText drawing ++ "-"
    ++ (if (heads drawing e.direction).2 then ">" else "")

/-- An edge of any groups that has neither a variable nor a length and asks for no properties. -/
def isPlain (e : EdgePattern) : Bool :=
  e.name.isNone && e.groups.all (fun g => isIdentifier g.name) && e.length.isNone
    && e.properties.isNone

end EdgePattern

namespace PathPattern

/-- Edges and the nodes that they lead to, the `i`-th edge drawn as `draw i` says. -/
def segmentsText (draw : Nat → Drawing) : List Segment → String
  | [] => ""
  | s :: rest => s.edge.text (draw 0) ++ s.node.text ++ segmentsText (fun i => draw (i + 1)) rest

def text (draw : Nat → Drawing) (p : PathPattern) : String :=
  p.start.text ++ segmentsText draw p.segments

def isPlain (p : PathPattern) : Bool :=
  p.start.isPlain && p.segments.all (fun s => s.edge.isPlain && s.node.isPlain)

end PathPattern

/-! ### Queries -/

/-- A filter, if there is one. -/
def filterText : Option Expr → String
  | some e => " WHERE " ++ e.text
  | none => ""

/-- A limit, if there is one. -/
def limitText : Option Nat → String
  | some k => " LIMIT " ++ toString k
  | none => ""

/-- The text of the query that matches a path, keeps what a predicate holds of, and returns a
variable, some answers at most. -/
def matchingText (draw : Nat → Drawing) (path : PathPattern) (filter : Option Expr) (name : String)
    (limit : Option Nat) : String :=
  "MATCH " ++ path.text draw ++ filterText filter ++ " RETURN " ++ name ++ limitText limit

end CodeGraph
