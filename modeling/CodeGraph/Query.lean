import CodeGraph.Edge
import CodeGraph.Expr
import CodeGraph.Kind
import CodeGraph.Property.Map

/-!
Queries: what can be written in a query text, whether or not it can be run.

A query matches paths of nodes and edges, filters what it matched, and returns expressions over it.
Writing clauses, orderings and skips are kept as well, so that a query with one can be refused by
its name.

* `NodePattern`, `EdgePattern`, `PathPattern`: the shapes that a match looks for.
* `WriteClause`: the clauses that would change the graph.
* `Query`: a whole query.
* `Query.matching`: the query that matches one path, filters it and returns a variable.
-/

namespace CodeGraph

/-! ### Patterns -/

/-- A node of a pattern: its variable, the labels it must carry and the properties it must have. -/
structure NodePattern where
  name : Option String := none
  labels : List Label := []
  properties : Option PropertyMap := none
deriving DecidableEq, Repr, Inhabited

/-- The direction of an edge as it is drawn in a pattern. -/
inductive PatternDirection
  | outgoing
  | incoming
  | both
deriving DecidableEq, Repr, Inhabited

namespace PatternDirection

/-- The directions in which edges are followed. -/
def directions : PatternDirection → List Direction
  | outgoing => [.outgoing]
  | incoming => [.incoming]
  | both => [.outgoing, .incoming]

end PatternDirection

/-- How many edges a step of a pattern may take. -/
structure PathLength where
  min : Option Nat
  max : Option Nat
deriving DecidableEq, Repr, Inhabited

/-- An edge of a pattern; without a group every edge will do. -/
structure EdgePattern where
  name : Option String := none
  groups : List Group := []
  direction : PatternDirection
  length : Option PathLength := none
  properties : Option PropertyMap := none
deriving DecidableEq, Repr, Inhabited

/-- An edge of a path, and the node it leads to. -/
structure Segment where
  edge : EdgePattern
  node : NodePattern
deriving DecidableEq, Repr, Inhabited

/-- A path: a node, then edges that each lead to a node. -/
structure PathPattern where
  start : NodePattern
  segments : List Segment := []
deriving DecidableEq, Repr, Inhabited

namespace PathPattern

/-- The path with an edge and a node more at its end. -/
def extend (p : PathPattern) (edge : EdgePattern) (node : NodePattern) : PathPattern :=
  { p with segments := p.segments ++ [⟨edge, node⟩] }

/-- The nodes of a path from its start to its end. -/
def nodes (p : PathPattern) : List NodePattern := p.start :: p.segments.map Segment.node

end PathPattern

/-! ### Clauses -/

/-- The paths of one match. -/
structure MatchClause where
  paths : List PathPattern
  optional : Bool := false
deriving DecidableEq, Repr, Inhabited

/-- A result of a query, under a heading of its own if it has one. -/
structure ReturnItem where
  value : Expr
  heading : Option String := none
deriving Repr, Inhabited

structure ReturnClause where
  items : List ReturnItem
  distinct : Bool := false
deriving Repr, Inhabited

structure OrderItem where
  value : Expr
  ascending : Bool := true
deriving Repr, Inhabited

/-- An assignment of a writing clause. -/
structure SetItem where
  name : String
  key : String
  value : Expr
deriving Repr, Inhabited

/-- The clauses that would change the graph. -/
inductive WriteClause
  | create (paths : List PathPattern)
  | merge (paths : List PathPattern)
  | delete (names : List String) (detach : Bool)
  | set (items : List SetItem)
deriving Repr, Inhabited

/-- The words that a writing clause starts with. -/
def WriteClause.keyword : WriteClause → String
  | create _ => "CREATE"
  | merge _ => "MERGE"
  | delete _ true => "DETACH DELETE"
  | delete _ false => "DELETE"
  | set _ => "SET"

/-! ### Queries -/

/-- A query, with every clause that its text may hold. -/
structure Query where
  matched : List MatchClause := []
  filter : Option Expr := none
  returned : Option ReturnClause := none
  order : Option (List OrderItem) := none
  skip : Option Nat := none
  limit : Option Nat := none
  writes : List WriteClause := []
deriving Repr, Inhabited

namespace Query

/-- The query that matches a path, keeps what a predicate holds of, and returns a variable. -/
def matching (path : PathPattern) (filter : Option Expr) (name : String) : Query where
  matched := [{ paths := [path] }]
  filter
  returned := some { items := [{ value := .var name }] }

def withLimit (q : Query) (limit : Nat) : Query := { q with limit := some limit }

def isReadOnly (q : Query) : Bool := q.writes.isEmpty

end Query
end CodeGraph
