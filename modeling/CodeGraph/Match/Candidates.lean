import CodeGraph.Chain
import CodeGraph.Expr.Eval
import CodeGraph.Schedule

/-!
Candidates for the positions of a chain.

The first position is filled from the store, through the shortest list of its labels in the index;
every later one by following edges from the candidates before it. A predicate over one variable is
asked of each candidate of that variable on the spot.

* `NodeSet`: ascending lists of names without repetition.
* `accepts`: whether a node can stand at a position.
* `scan`: the candidates of a first position.
* `expand`: the pairs of candidates that a step joins.
-/

namespace CodeGraph

/-! ### Sets of nodes -/

/-- A set of nodes: their names in ascending order, each once. -/
abbrev NodeSet := List NodeId

namespace NodeSet

/-- Puts a name at its place. -/
def insert (id : NodeId) : NodeSet → NodeSet
  | [] => [id]
  | other :: rest =>
    if id.index < other.index then id :: other :: rest
    else if id.index = other.index then other :: rest
    else other :: insert id rest

/-- The set of the names in a list. -/
def ofList (ids : List NodeId) : NodeSet := ids.foldr insert []

/-- The members of one set that are in another list as well. -/
def inter (set : NodeSet) (other : List NodeId) : NodeSet := set.filter (fun id => id ∈ other)

theorem mem_insert {id x : NodeId} {set : NodeSet} : x ∈ insert id set ↔ x = id ∨ x ∈ set := by
  induction set with
  | nil => simp [insert]
  | cons other rest ih =>
    rw [insert]
    split
    · simp
    · split
      · rename_i h
        have : id = other := by
          cases id
          cases other
          simp_all
        subst this
        simp
      · simp [ih]
        grind

/-- A set holds exactly the names of its list. -/
@[simp] theorem mem_ofList {x : NodeId} {ids : List NodeId} : x ∈ ofList ids ↔ x ∈ ids := by
  induction ids with
  | nil => simp [ofList]
  | cons id rest ih =>
    show x ∈ insert id (ofList rest) ↔ _
    rw [mem_insert, ih, List.mem_cons]

/-- Being in ascending order without repetition. -/
def Ascending (set : List NodeId) : Prop := set.Pairwise (fun a b => a.index < b.index)

theorem ascending_insert {id : NodeId} {set : NodeSet} (h : Ascending set) :
    Ascending (insert id set) := by
  induction set with
  | nil => simp [insert, Ascending]
  | cons other rest ih =>
    have hc := List.pairwise_cons.1 h
    rw [insert]
    split
    · rename_i hlt
      refine List.pairwise_cons.2 ⟨fun x hx => ?_, h⟩
      rcases List.mem_cons.1 hx with rfl | hx
      · exact hlt
      · exact Nat.lt_trans hlt (hc.1 x hx)
    · split
      · exact h
      · refine List.pairwise_cons.2 ⟨fun x hx => ?_, ih hc.2⟩
        rcases mem_insert.1 hx with rfl | hx
        · omega
        · exact hc.1 x hx

theorem ascending_ofList (ids : List NodeId) : Ascending (ofList ids) := by
  induction ids with
  | nil => exact List.Pairwise.nil
  | cons id rest ih => exact ascending_insert ih

end NodeSet

/-! ### Candidates -/

/-- A predicate over a single variable. -/
structure NodeFilter where
  name : String
  predicate : Expr
deriving Repr

/-- The lookup of a row in which one variable is bound. -/
def lookupOne (name : String) (id : NodeId) : Lookup := fun n => if n = name then some id else none

/-- The filter of a position: the predicate, if it is over the variable that stands there. -/
def ChainNode.filterOf (n : ChainNode) (filter : Option NodeFilter) : Option Expr :=
  filter.bind (fun f => if f.name = n.name then some f.predicate else none)

/-- Whether a node can stand at a position: it is in the store, carries the labels and passes the
filter. -/
def accepts (s : Store) (n : ChainNode) (filter : Option Expr) (id : NodeId) : Bool :=
  match s.node? id with
  | some candidate =>
    candidate.hasLabels n.labels && filter.all (fun e => e.holds s (lookupOne n.name id))
  | none => false

/-- The shortest of some lists, the first of several. -/
def shortest : List (List NodeId) → Option (List NodeId)
  | [] => none
  | ids :: rest =>
    match shortest rest with
    | some other => if other.length < ids.length then some other else some ids
    | none => some ids

/-- The names among which the candidates of a position are looked for. -/
def scanned (s : Store) (n : ChainNode) : List NodeId :=
  (shortest (n.labels.map s.labelIds)).getD (s.nodes.toList.map Node.id)

/-- The candidates of a first position, up to a limit. -/
def scan (schedule : Schedule) (s : Store) (n : ChainNode) (filter : Option Expr)
    (limit : Option Nat) :
    List NodeId :=
  schedule.firstMatches limit (fun id => if accepts s n filter id then some id else none)
    (scanned s n)

/-- The nodes that a step leads to from a node. -/
def ChainStep.ends (step : ChainStep) (s : Store) (id : NodeId) : List NodeId :=
  s.farEnds id step.groups step.direction.directions

/-- The pairs that a step joins, from each candidate to the acceptable nodes that it leads to. -/
def expand (schedule : Schedule) (s : Store) (previous : List NodeId) (step : ChainStep)
    (next : ChainNode)
    (filter : Option Expr) : List (NodeId × NodeId) :=
  schedule.run (fun part => part.flatMap (fun p =>
    ((step.ends s p).filter (accepts s next filter)).map (fun q => (p, q)))) previous

end CodeGraph
