import CodeGraph.Match.Candidates

/-!
Pruning the candidates of a chain.

A pair survives only if both of its ends are candidates, a candidate only if it has a pair on each
side where there is a step, and the positions of one variable keep the same candidates. Rounds of
these three demands are made until a round changes nothing.

* `Matched`: the candidates of each position and the pairs of each step.
* `Matched.round`: the three demands, once.
* `Matched.prune`: rounds up to the first that changes nothing.
-/

namespace CodeGraph

/-- The candidates of each position of a chain, and the pairs of each step. -/
structure Matched where
  positions : List NodeSet
  pairs : List (List (NodeId × NodeId))
deriving DecidableEq, Repr, Inhabited

namespace Matched

/-- The match of a chain that nothing fits. -/
def empty (c : Chain) : Matched :=
  ⟨List.replicate c.nodes.length [], List.replicate c.steps.length []⟩

/-- Whether some position has no candidate. -/
def isEmpty (m : Matched) : Bool := m.positions.any List.isEmpty

/-- The number of candidates and pairs. -/
def size (m : Matched) : Nat := m.positions.flatten.length + m.pairs.flatten.length

/-! ### The three demands -/

/-- Keeps the pairs whose ends are candidates of the positions that their step joins. -/
def keepPairs : List NodeSet → List (List (NodeId × NodeId)) → List (List (NodeId × NodeId))
  | previous :: next :: positions, pairs :: rest =>
    pairs.filter (fun p => p.1 ∈ previous ∧ p.2 ∈ next) :: keepPairs (next :: positions) rest
  | _, pairs => pairs

/-- Keeps the candidates that are the end of a pair of the step before and the start of one of the
step after. The step before the first position is `none`. -/
def keepNodes : Option (List (NodeId × NodeId)) → List NodeSet → List (List (NodeId × NodeId)) →
    List NodeSet
  | before, set :: positions, after :: rest =>
    let set := match before with
      | some pairs => NodeSet.inter set (pairs.map Prod.snd)
      | none => set
    NodeSet.inter set (after.map Prod.fst) :: keepNodes (some after) positions rest
  | before, set :: positions, [] =>
    (match before with
      | some pairs => NodeSet.inter set (pairs.map Prod.snd)
      | none => set) :: positions
  | _, [], _ => []

/-- The candidates that are in every one of the sets at some positions. -/
def common (sets : List NodeSet) (set : NodeSet) : NodeSet :=
  set.filter (fun id => sets.all (fun other => id ∈ other))

/-- Keeps at each position the candidates that all positions of its variable share. Where no
variable is repeated there is nothing to do. -/
def shareNodes (c : Chain) (positions : List NodeSet) : List NodeSet :=
  if c.hasReusedVariables then
    (c.nodes.zip positions).map (fun p =>
      common (((c.nodes.zip positions).filter (fun q => q.1.name = p.1.name)).map Prod.snd) p.2)
  else positions

/-- The three demands, once: on the pairs, on the candidates, on the positions of one variable. -/
def round (c : Chain) (m : Matched) : Matched :=
  let pairs := keepPairs m.positions m.pairs
  { positions := shareNodes c (keepNodes none m.positions pairs), pairs }

/-! ### Pruning -/

/-- Rounds until one changes nothing, at most `fuel` of them. A round only takes away, so it changes
nothing exactly if it leaves the size. -/
def settle (c : Chain) : (fuel : Nat) → Matched → Matched
  | 0, m => m
  | fuel + 1, m =>
    let next := round c m
    if next.size = m.size then next else settle c fuel next

/-- The part of a match that meets all demands. Each round but the last takes something away, so the
size bounds their number. -/
def prune (c : Chain) (m : Matched) : Matched := settle c (m.size + 1) m

end Matched
end CodeGraph
