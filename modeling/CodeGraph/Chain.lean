import CodeGraph.Query

/-!
Chains: the part of a query that is run.

A chain is a row of positions joined by steps. A variable may stand at several positions, which then
all hold the same node.

* `Chain`: positions and steps.
* `Chain.vars`, `Chain.positionsOf`: the variables and where they stand.
* `ChainQuery`: a chain with a predicate, the variable whose nodes are returned, and a limit.
-/

namespace CodeGraph

/-- A position of a chain. An anonymous one has a variable that was not written. -/
structure ChainNode where
  name : String
  labels : List Label := []
  anonymous : Bool := false
deriving DecidableEq, Repr, Inhabited

/-- The edges that join a position to the next; without a group every edge will do. -/
structure ChainStep where
  groups : List Group := []
  direction : PatternDirection
deriving DecidableEq, Repr, Inhabited

/-- Positions joined by steps, of which there should be one fewer. -/
structure Chain where
  nodes : List ChainNode
  steps : List ChainStep
deriving DecidableEq, Repr, Inhabited

namespace Chain

/-- Whether there is a step between any two consecutive positions, and at least one position. -/
def isWellFormed (c : Chain) : Bool := c.nodes.length == c.steps.length + 1

/-- The variables of a chain, each at its first position. -/
def vars (c : Chain) : List String := c.nodes.foldl (fun names n => Expr.noteName names n.name) []

/-- The positions after `offset` others that hold a variable. -/
def positionsFrom (name : String) : (offset : Nat) → List ChainNode → List Nat
  | _, [] => []
  | offset, n :: rest =>
    if n.name = name then offset :: positionsFrom name (offset + 1) rest
    else positionsFrom name (offset + 1) rest

/-- The positions of a variable in ascending order. -/
def positionsOf (c : Chain) (name : String) : List Nat := positionsFrom name 0 c.nodes

/-- Whether a variable stands at several positions. -/
def hasReusedVariables (c : Chain) : Bool := c.vars.length < c.nodes.length

end Chain

/-- A query that can be run. -/
structure ChainQuery where
  chain : Chain
  predicate : Option Expr := none
  returned : String
  column : String
  limit : Option Nat := none
deriving Repr, Inhabited

end CodeGraph
