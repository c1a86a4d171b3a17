import CodeGraph.Cypher.Statement
import CodeGraph.Lowering
import CodeGraph.Match.Run

/-!
Answering queries.

The answer to a query is the nodes of its returned variable, in ascending order and up to its limit.
The bindings of a query are the nodes of all its variables, whatever its limit.

* `ChainQuery.answer`: the answer to a query that can be run.
* `Query.answer`, `Query.bindings`: the answer and the bindings of a query, if it can be run.
* `answerText`: the answer to a query text.
-/

namespace CodeGraph

/-- The nodes that a query returns, under the name of its column. -/
structure Answer where
  column : String
  nodes : List Node
deriving Repr

namespace Answer

def ids (a : Answer) : List NodeId := a.nodes.map Node.id

/-- The names of the returned nodes that have one. -/
def names (a : Answer) : List String := a.nodes.filterMap Node.name?

end Answer

namespace ChainQuery

/-- The position whose nodes are returned: the first of the returned variable. -/
def returnedPosition (q : ChainQuery) : Nat := ((q.chain.positionsOf q.returned).head?).getD 0

/-- The names of the returned nodes in a match. -/
def returnedIds (q : ChainQuery) (m : Matched) : List NodeId :=
  let ids := (m.positions[q.returnedPosition]?).getD []
  match q.limit with
  | some limit => ids.take limit
  | none => ids

/-- The answer to a query that can be run. -/
def answer (schedule : Schedule) (s : Store) (q : ChainQuery) : Answer where
  column := q.column
  nodes := (q.returnedIds (q.run schedule s)).filterMap s.node?

end ChainQuery

namespace Query

/-- The answer to a query, if it can be run. -/
def answer (schedule : Schedule) (s : Store) (q : Query) : Except QueryError Answer :=
  q.compile.map (fun c => c.answer schedule s)

/-- The nodes of the variables of a query, if it can be run. The limit does not count. -/
def bindings (schedule : Schedule) (s : Store) (q : Query) : Except QueryError Bindings :=
  q.compile.map (fun c =>
    let unlimited := { c with limit := none }
    (unlimited.run schedule s).bindings unlimited.chain)

end Query

/-- Why a query text has no answer. -/
inductive TextError
  | parse (e : Cypher.ParseError)
  | query (e : QueryError)
deriving DecidableEq, Repr

def TextError.message : TextError → String
  | parse e => e.message
  | query e => e.message

/-- The answer to a query text. -/
def answerText (schedule : Schedule) (s : Store) (text : String) : Except TextError Answer :=
  match Query.ofText text with
  | .error e => .error (.parse e)
  | .ok q =>
    match q.answer schedule s with
    | .error e => .error (.query e)
    | .ok a => .ok a

end CodeGraph
