import CodeGraph.Edge
import CodeGraph.Kind
import CodeGraph.Property.Map

/-!
Nodes of a code graph.

A node has a kind, which gives it its labels, a map of properties, and the lists of the edges at it.
A node that was never added to a store has no name.

* `Node`: the parts of a node.
* `Node.named`, `Node.variable`, …: the nodes that a reader of source code makes.
-/

namespace CodeGraph

/-- A node: its name in the store, its kind, its properties and its edges. -/
structure Node where
  id : NodeId := .unassigned
  kind : Kind
  properties : PropertyMap := {}
  outgoing : EdgeLists := {}
  incoming : EdgeLists := {}
deriving DecidableEq, Repr, Inhabited

namespace Node

/-! ### Labels and properties -/

def labels (n : Node) : List Label := n.kind.labels

def hasLabel (n : Node) (label : Label) : Bool := label ∈ n.labels

def hasLabels (n : Node) (labels : List Label) : Bool := labels.all n.hasLabel

def get? (n : Node) (key : String) : Option Property := n.properties.get? key

def set (n : Node) (key : String) (value : Property) : Node :=
  { n with properties := n.properties.insert key value }

/-- The text under `name`; a node with any other property there has no name. -/
def name? (n : Node) : Option String := (n.get? "name").bind Property.string?

/-! ### Edges -/

def edges (n : Node) : Direction → EdgeLists
  | .outgoing => n.outgoing
  | .incoming => n.incoming

/-- The node with an entry more in a direction. -/
def record (n : Node) (direction : Direction) (source target : NodeId) (group : Group) : Node :=
  match direction with
  | .outgoing => { n with outgoing := n.outgoing.record source target group }
  | .incoming => { n with incoming := n.incoming.record source target group }

/-! ### Nodes of source code -/

/-- A node of any kind with a name and its source text. -/
def named (kind : Kind) (name code : String) : Node :=
  { kind, properties := .ofList [("name", .string name), ("code", .string code)] }

def variableDeclaration (name code : String) : Node := named .variableDeclaration name code

def fieldDeclaration (name code : String) : Node := named .fieldDeclaration name code

def functionDeclaration (name code : String) : Node := named .functionDeclaration name code

def methodDeclaration (name code : String) : Node := named .methodDeclaration name code

def recordDeclaration (name code : String) : Node := named .recordDeclaration name code

def callExpression (name code : String) : Node := named .callExpression name code

/-- A parameter, with its place among the parameters of its function; the last one may stand for any
number of arguments. -/
def parameter (name code : String) (index : Nat) (variadic : Bool) : Node :=
  ((named .paramVariableDeclaration name code).set "argument_index" (.ofInt index)).set
    "is_variadic" (.boolean variadic)

/-- A literal, which has a value in place of a name. -/
def literal (code : String) (value : Property) : Node :=
  { kind := .literal, properties := .ofList [("code", .string code), ("value", value)] }

/-! ### Small facts -/

@[simp] theorem edges_record_same (n : Node) (d : Direction) (source target : NodeId)
    (group : Group) :
    (n.record d source target group).edges d = (n.edges d).record source target group := by
  cases d <;> rfl

@[simp] theorem edges_record_reverse (n : Node) (d : Direction) (source target : NodeId)
    (group : Group) : (n.record d.reverse source target group).edges d = n.edges d := by
  cases d <;> rfl

@[simp] theorem kind_record (n : Node) (d : Direction) (source target : NodeId) (group : Group) :
    (n.record d source target group).kind = n.kind := by cases d <;> rfl

@[simp] theorem id_record (n : Node) (d : Direction) (source target : NodeId) (group : Group) :
    (n.record d source target group).id = n.id := by cases d <;> rfl

/-- Nodes of one kind carry the same labels. -/
theorem hasLabels_congr {n n' : Node} (h : n.kind = n'.kind) : n.hasLabels = n'.hasLabels := by
  funext labels
  have hlabel : n.hasLabel = n'.hasLabel := by
    funext label
    rw [hasLabel, hasLabel, Node.labels, Node.labels, h]
  rw [hasLabels, hasLabels, hlabel]

@[simp] theorem get?_set (n : Node) (key other : String) (value : Property) :
    (n.set key value).get? other = if other = key then some value else n.get? other := by
  simp [set, get?]

end Node
end CodeGraph
