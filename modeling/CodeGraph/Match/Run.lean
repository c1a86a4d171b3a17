import CodeGraph.Match.Rows

/-!
Matching a chain against a store.

The positions are filled from the first to the last, then pruned. A predicate that speaks of no
variable is decided at once; one over a single variable filters the candidates of that variable; any
other is asked of whole rows, as is the repetition of a variable.

* `Question`: a predicate, sorted by how it is asked.
* `ChainQuery.run`: the match of a chain query.
* `Bindings`, `Matched.bindings`: the nodes of each written variable.
-/

namespace CodeGraph

/-! ### Asking a predicate -/

/-- How the predicate of a chain is asked. -/
inductive Question
  | never
  | always
  | ofNode (filter : NodeFilter)
  | ofRow (predicate : Expr)
deriving Repr

namespace Question

/-- A predicate without a variable is decided, one with a single variable is asked of nodes, and any
other of rows. -/
def ofPredicate (s : Store) : Option Expr → Question
  | none => always
  | some e =>
    match e.vars with
    | [] => if e.holdsConstantly s then always else never
    | [name] => ofNode ⟨name, e⟩
    | _ => ofRow e

def nodeFilter? : Question → Option NodeFilter
  | ofNode filter => some filter
  | _ => none

def rowPredicate? : Question → Option Expr
  | ofRow e => some e
  | _ => none

end Question

/-! ### Filling the positions -/

/-- The candidates of a position and of all after it, and the pairs between them, from the
candidates of the first of them. -/
def fillFrom (schedule : Schedule) (s : Store) (filter : Option NodeFilter) (candidates : NodeSet) :
    List (ChainStep × ChainNode) → List NodeSet × List (List (NodeId × NodeId))
  | [] => ([candidates], [])
  | (step, next) :: rest =>
    let pairs := expand schedule s candidates step next (next.filterOf filter)
    let (positions, later) := fillFrom schedule s filter (NodeSet.ofList (pairs.map Prod.snd)) rest
    (candidates :: positions, pairs :: later)

/-- The candidates of all positions. Only a chain of a single position may stop at a limit. -/
def fill (schedule : Schedule) (s : Store) (c : Chain) (filter : Option NodeFilter)
    (limit : Option Nat) :
    Matched :=
  match c.nodes with
  | [] => .empty c
  | first :: rest =>
    let limit := if c.steps.isEmpty then limit else none
    let candidates := scan schedule s first (first.filterOf filter) limit
    let (positions, pairs) := fillFrom schedule s filter candidates (c.steps.zip rest)
    ⟨positions, pairs⟩

/-! ### Matching -/

/-- The match of a chain query. A chain whose steps do not fit its positions matches nothing. -/
def ChainQuery.run (schedule : Schedule) (s : Store) (q : ChainQuery) : Matched :=
  let c := q.chain
  if !c.isWellFormed then .empty c
  else
    match Question.ofPredicate s q.predicate with
    | .never => .empty c
    | question =>
      let filled := fill schedule s c question.nodeFilter? q.limit
      let pruned := if c.steps.isEmpty then filled else filled.prune c
      if question.rowPredicate?.isSome || c.hasReusedVariables then
        (pruned.filterRows schedule s c question.rowPredicate?).prune c
      else pruned

/-! ### Bindings -/

/-- The nodes of each written variable, in the order of the chain. -/
abbrev Bindings := List (String × NodeSet)

/-- The node sets of the written variables of a chain, each at its first position. -/
def Matched.bindings (m : Matched) (c : Chain) : Bindings :=
  (c.nodes.zip m.positions).foldl (fun bound p =>
    if p.1.anonymous || bound.any (fun b => b.1 == p.1.name) then bound
    else bound ++ [(p.1.name, p.2)]) []

end CodeGraph
