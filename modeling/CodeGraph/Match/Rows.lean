import CodeGraph.Match.Prune

/-!
The rows of a chain.

A row gives every position a node such that consecutive nodes are a pair of their step and positions
of one variable hold the same node. A predicate over several variables is asked of whole rows, and a
chain that repeats a variable is matched row by row too.

* `rowsFrom`: the rows that start at a node.
* `rowLookup`: what a row binds its variables to.
* `Matched.filterRows`: the nodes of the rows that pass a predicate.
-/

namespace CodeGraph

/-- The node of each position. -/
abbrev Row := List NodeId

/-- What the first positions of a row bind variables to, the first position of a variable first. -/
abbrev Bound := List (String × NodeId)

/-- The node that a variable is bound to. -/
def Bound.get? (bound : Bound) (name : String) : Option NodeId :=
  match bound with
  | [] => none
  | (n, id) :: rest => if n = name then some id else Bound.get? rest name

/-- What a row binds the variables of a chain to: the node at the first position of each. -/
def rowLookup (nodes : List ChainNode) (row : Row) : Lookup :=
  Bound.get? ((nodes.map ChainNode.name).zip row)

/-- The nodes that the pairs of a step lead to from a node. -/
def successors (pairs : List (NodeId × NodeId)) (id : NodeId) : List NodeId :=
  pairs.filterMap (fun p => if p.1 = id then some p.2 else none)

/-- The rest of the rows that pass through a node, one list for each row, in the order of the pairs.
A variable that is bound already must take the same node again. -/
def rowsFrom (bound : Bound) (id : NodeId) :
    List (List (NodeId × NodeId) × String) → List Row
  | [] => [[]]
  | (pairs, name) :: rest =>
    (successors pairs id).flatMap (fun next =>
      if (bound.get? name).all (· == next) then
        (rowsFrom (bound ++ [(name, next)]) next rest).map (next :: ·)
      else [])

/-- The rows of a chain that start at a node. -/
def rowsThrough (c : Chain) (m : Matched) (start : NodeId) : List Row :=
  match c.nodes with
  | [] => []
  | first :: rest =>
    (rowsFrom [(first.name, start)] start (m.pairs.zip (rest.map ChainNode.name))).map (start :: ·)

/-- The set of the nodes that rows have at each of `width` positions. -/
def columns (width : Nat) (rows : List Row) : List NodeSet :=
  rows.foldr (fun row sets => List.zipWith NodeSet.insert row sets) (List.replicate width [])

namespace Matched

/-- Keeps at each position the nodes of the rows that pass a predicate. The pairs stay as they are.
-/
def filterRows (schedule : Schedule) (s : Store) (c : Chain) (predicate : Option Expr)
    (m : Matched) :
    Matched :=
  let passes (row : Row) : Bool := predicate.all (fun e => e.holds s (rowLookup c.nodes row))
  let rows := schedule.run (fun part => (part.flatMap (rowsThrough c m)).filter passes)
    (m.positions.headD [])
  { m with positions := columns c.nodes.length rows }

end Matched
end CodeGraph
