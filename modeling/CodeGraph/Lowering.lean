import CodeGraph.Chain

/-!
From queries to chains.

A query can be run if it matches one path, filters it without function calls, and returns one
variable of a node, perhaps under a heading and with a limit. Property maps of nodes become part of
the predicate. Every other query is refused with the first reason in a fixed order: clauses that
write, order or skip, the match, its path, what is returned, the filter.

* `QueryError`: the reasons.
* `PathPattern.toChain`: the chain of a path.
* `PathPattern.inlinePredicates`: the comparisons that the property maps of its nodes stand for.
* `Query.compile`: the chain query of a query.
-/

namespace CodeGraph

/-! ### Reasons for a refusal -/

/-- The clauses in which variables and functions are looked up. -/
inductive Place
  | returned
  | filter
deriving DecidableEq, Repr

def Place.name : Place → String
  | returned => "RETURN"
  | filter => "WHERE"

/-- What can be written but not run. -/
inductive Unsupported
  | writeClause (keyword : String)
  | order
  | skip
  | severalMatches
  | optionalMatch
  | severalPaths
  | pathLength
  | edgeProperties
  | edgeVariable (name : String) (place : Place)
  | severalItems
  | propertyProjection (name key : String)
  | call (function : String) (place : Place)
  | otherProjection
deriving DecidableEq, Repr

def Unsupported.message : Unsupported → String
  | writeClause keyword => keyword ++ " clause"
  | order => "ORDER BY"
  | skip => "SKIP"
  | severalMatches => "multiple MATCH clauses"
  | optionalMatch => "OPTIONAL MATCH"
  | severalPaths => "comma-separated patterns"
  | pathLength => "variable-length relationships"
  | edgeProperties => "relationship property maps"
  | edgeVariable name place => "relationship variable `" ++ name ++ "` in " ++ place.name
  | severalItems => "multiple RETURN items"
  | propertyProjection name key => "property projection `" ++ name ++ "." ++ key ++ "`"
  | call function place => "function `" ++ function ++ "` in " ++ place.name
  | otherProjection => "RETURN of anything but a node variable"

/-- What a query lacks, or uses for two things. -/
inductive PlanFault
  | noMatch
  | emptyPattern
  | nameOfNodeAndEdge (name : String)
  | noReturn
  | emptyReturn
deriving DecidableEq, Repr

def PlanFault.message : PlanFault → String
  | noMatch => "Query must have a MATCH clause"
  | emptyPattern => "Empty MATCH pattern"
  | nameOfNodeAndEdge name => "Variable `" ++ name ++ "` used as both node and relationship"
  | noReturn => "Query must have a RETURN clause"
  | emptyReturn => "Empty RETURN clause"

/-- Why a query cannot be run. -/
inductive QueryError
  | undeclared (name : String)
  | unsupported (feature : Unsupported)
  | planning (fault : PlanFault)
deriving DecidableEq, Repr

def QueryError.message : QueryError → String
  | undeclared name => "Undeclared variable: " ++ name
  | unsupported feature => "Unsupported feature: " ++ feature.message
  | planning fault => "Planning error: " ++ fault.message

/-! ### The chain of a path -/

/-- The variable of a node that was given none. It holds a space, as no written variable does. -/
def anonymousName (position : Nat) : String := "anon " ++ toString position

namespace NodePattern

/-- The variable of a node at a position. -/
def variableAt (n : NodePattern) (position : Nat) : String := n.name.getD (anonymousName position)

/-- The position of a chain that a node of a path becomes. -/
def toChainNode (n : NodePattern) (position : Nat) : ChainNode where
  name := n.variableAt position
  labels := n.labels
  anonymous := n.name.isNone

/-- The comparisons that the property map of a node stands for, in the order of its keys. -/
def comparisons (n : NodePattern) (position : Nat) : List Expr :=
  match n.properties with
  | some properties => properties.entries.map (fun e =>
      .equals (.property (n.variableAt position) e.1) (.literal e.2))
  | none => []

end NodePattern

namespace PathPattern

/-- The positions of a chain that nodes become, after `offset` others. -/
def chainNodesFrom : (offset : Nat) → List NodePattern → List ChainNode
  | _, [] => []
  | offset, n :: rest => n.toChainNode offset :: chainNodesFrom (offset + 1) rest

def chainNodes (p : PathPattern) : List ChainNode := chainNodesFrom 0 p.nodes

/-- The comparisons of the property maps of nodes, after `offset` others. -/
def inlineFrom : (offset : Nat) → List NodePattern → List Expr
  | _, [] => []
  | offset, n :: rest => n.comparisons offset ++ inlineFrom (offset + 1) rest

/-- The comparisons that the property maps of a path stand for. -/
def inlinePredicates (p : PathPattern) : List Expr := inlineFrom 0 p.nodes

/-- Whether an edge can be a step: it must have no length, no properties, and no variable of a node.
-/
def checkEdge (nodes : List ChainNode) (e : EdgePattern) : Except QueryError ChainStep :=
  if e.length.isSome then .error (.unsupported .pathLength)
  else if e.properties.any (fun m => !m.isEmpty) then .error (.unsupported .edgeProperties)
  else
    match e.name with
    | some name =>
      if nodes.any (fun n => n.name == name) then .error (.planning (.nameOfNodeAndEdge name))
      else .ok { groups := e.groups, direction := e.direction }
    | none => .ok { groups := e.groups, direction := e.direction }

/-- The chain of a path. -/
def toChain (p : PathPattern) : Except QueryError Chain := do
  let nodes := p.chainNodes
  let steps ← p.segments.mapM (fun segment => checkEdge nodes segment.edge)
  pure { nodes, steps }

/-- The variables that nodes of a path are given. -/
def nodeVariables (p : PathPattern) : List String := p.nodes.filterMap NodePattern.name

/-- The variables that edges of a path are given. -/
def edgeVariables (p : PathPattern) : List String := p.segments.filterMap (fun s => s.edge.name)

/-- A variable can be used where a node is meant if it was given to a node. -/
def checkVariable (p : PathPattern) (place : Place) (name : String) : Except QueryError Unit :=
  if name ∈ p.nodeVariables then .ok ()
  else if name ∈ p.edgeVariables then .error (.unsupported (.edgeVariable name place))
  else .error (.undeclared name)

end PathPattern

/-! ### The chain query of a query -/

namespace Query

/-- The one path that a query matches. -/
def path (q : Query) : Except QueryError PathPattern :=
  match q.matched with
  | [] => .error (.planning .noMatch)
  | [clause] =>
    if clause.optional then .error (.unsupported .optionalMatch)
    else
      match clause.paths with
      | [path] => .ok path
      | [] => .error (.planning .emptyPattern)
      | _ => .error (.unsupported .severalPaths)
  | _ => .error (.unsupported .severalMatches)

/-- The one item that a query returns. -/
def returnedItem (q : Query) : Except QueryError ReturnItem :=
  match q.returned with
  | none => .error (.planning .noReturn)
  | some clause =>
    match clause.items with
    | [item] => .ok item
    | [] => .error (.planning .emptyReturn)
    | _ => .error (.unsupported .severalItems)

/-- A query that writes, orders or skips is refused. -/
def checkClauses (q : Query) : Except QueryError Unit :=
  match q.writes with
  | clause :: _ => .error (.unsupported (.writeClause clause.keyword))
  | [] =>
    if q.order.isSome then .error (.unsupported .order)
    else if q.skip.isSome then .error (.unsupported .skip)
    else .ok ()

end Query

/-- The variable that an item returns. -/
def ReturnItem.returnedName (item : ReturnItem) (path : PathPattern) : Except QueryError String :=
  match item.value with
  | .var name => do
    path.checkVariable .returned name
    pure name
  | .property name key => .error (.unsupported (.propertyProjection name key))
  | .call function _ => .error (.unsupported (.call function .returned))
  | _ => .error (.unsupported .otherProjection)

/-- A filter must call no function and use no variable but those of nodes. -/
def PathPattern.checkFilter (p : PathPattern) (filter : Expr) : Except QueryError Unit :=
  match filter.function? with
  | some function => .error (.unsupported (.call function .filter))
  | none => filter.vars.forM (p.checkVariable .filter)

/-- The conjunction of expressions from left to right, absent if there are none. -/
def conjunction : List Expr → Option Expr
  | [] => none
  | e :: rest => some (rest.foldl .and e)

/-- The chain query of a query, or the first reason why it cannot be run. -/
def Query.compile (q : Query) : Except QueryError ChainQuery := do
  q.checkClauses
  let path ← q.path
  let chain ← path.toChain
  let item ← q.returnedItem
  let returned ← item.returnedName path
  if let some filter := q.filter then path.checkFilter filter
  pure
    { chain, returned
      predicate := conjunction (path.inlinePredicates ++ q.filter.toList)
      column := item.heading.getD returned
      limit := q.limit }

end CodeGraph
