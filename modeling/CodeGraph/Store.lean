import CodeGraph.Node

/-!
The store of a code graph.

Nodes are added one after another and never removed; the name of a node is its place. Edges join
nodes of the store and are recorded at both ends. An index from labels to names spares a search by
label the walk over all nodes.

* `Store.add`: a node more; it takes the next name and keeps its properties and edge lists.
* `Store.InPlace`: a change that may be refused with a `StoreError`, and leaves a store all the
  same.
* `Store.join`, `Store.replaceProperty`: changes of existing nodes; `Store.addEdge` and
  `Store.setProperty` are what they make of a store.
* `Store.labelIds`: the names of the nodes with a label, in ascending order.
* `Store.farEnds`: the nodes that the edges of a node lead to, each once.
-/

namespace CodeGraph

/-! ### Errors -/

/-- Why a change of the store is refused. -/
inductive StoreError
  | nodeNotFound (id : NodeId)
  | invalidEdgeTarget (id : NodeId)
deriving DecidableEq, Repr

def StoreError.message : StoreError → String
  | nodeNotFound id => "Node " ++ id.display ++ " not found"
  | invalidEdgeTarget id => "Invalid edge: target node " ++ id.display ++ " does not exist"

/-! ### The index of labels -/

/-- For each label in use, the names of the nodes that carry it. -/
structure LabelIndex where
  entries : List (Label × Array NodeId) := []
deriving DecidableEq, Repr, Inhabited

namespace LabelIndex

/-- Puts a name at the end of the list of a label, opening the list if there is none. -/
def noteIn (label : Label) (id : NodeId) : List (Label × Array NodeId) → List (Label × Array NodeId)
  | [] => [(label, #[id])]
  | (l, ids) :: rest =>
      if l = label then (l, ids.push id) :: rest else (l, ids) :: noteIn label id rest

def note (index : LabelIndex) (id : NodeId) (label : Label) : LabelIndex :=
  ⟨noteIn label id index.entries⟩

/-- The names in the list of a label among `entries`. -/
def idsIn (label : Label) : List (Label × Array NodeId) → List NodeId
  | [] => []
  | (l, ids) :: rest => if l = label then ids.toList else idsIn label rest

def ids (index : LabelIndex) (label : Label) : List NodeId := idsIn label index.entries

theorem idsIn_noteIn (label other : Label) (id : NodeId) (entries : List (Label × Array NodeId)) :
    idsIn other (noteIn label id entries)
      = if other = label then idsIn other entries ++ [id] else idsIn other entries := by
  induction entries with
  | nil =>
    by_cases h : other = label
    · simp [noteIn, idsIn, h]
    · simp [noteIn, idsIn, h, Ne.symm h]
  | cons head rest ih =>
    obtain ⟨l, ids⟩ := head
    by_cases hl : l = label
    · subst hl
      by_cases h : l = other
      · subst h
        simp [noteIn, idsIn]
      · simp [noteIn, idsIn, h, Ne.symm h]
    · by_cases h : l = other
      · subst h
        simp [noteIn, idsIn, hl]
      · simp [noteIn, idsIn, hl, h, ih]

/-- Noting a name under a label adds it at the end of that label's names. -/
theorem ids_note (index : LabelIndex) (id : NodeId) (label other : Label) :
    (index.note id label).ids other
      = if other = label then index.ids other ++ [id] else index.ids other :=
  idsIn_noteIn label other id index.entries

end LabelIndex

/-! ### The store -/

/-- A graph of nodes, an index of their labels and the number of edges added. -/
structure Store where
  nodes : Array Node := #[]
  labelIndex : LabelIndex := {}
  edgeCount : Nat := 0
deriving DecidableEq, Repr, Inhabited

namespace Store

/-- The group that joins a function to its parameters. -/
def parameters : Group := ⟨"parameters"⟩

/-! ### Reading -/

def size (s : Store) : Nat := s.nodes.size

def isEmpty (s : Store) : Bool := s.nodes.isEmpty

def node? (s : Store) (id : NodeId) : Option Node := s.nodes[id.index]?

def hasNode (s : Store) (id : NodeId) : Bool := id.index < s.nodes.size

/-- A property of a node, absent if either is. -/
def property? (s : Store) (id : NodeId) (key : String) : Option Property :=
  (s.node? id).bind (fun n => n.get? key)

/-- The names of the nodes with a label. -/
def labelIds (s : Store) (label : Label) : List NodeId := s.labelIndex.ids label

/-- The edges at a node in a direction, of one group or of all; an unknown node has none. -/
def edges (s : Store) (id : NodeId) (group : Option Group) (direction : Direction) : List Edge :=
  match s.node? id with
  | some n => (n.edges direction).select group
  | none => []

/-- The ends that were not met before, in their order. -/
def unseen (seen : List NodeId) : List NodeId → List NodeId
  | [] => []
  | id :: rest => if id ∈ seen then unseen seen rest else id :: unseen (id :: seen) rest

/-- The nodes that the edges of a node lead to, each at its first occurrence: direction after
direction, group after group. Without a group every edge counts. -/
def farEnds (s : Store) (id : NodeId) (groups : List Group) (directions : List Direction) :
    List NodeId :=
  match s.node? id with
  | some n =>
    unseen [] (directions.flatMap (fun d =>
      ((n.edges d).selectAny groups).map (fun e => e.farEnd d)))
  | none => []

/-! ### Growing and changing -/

/-- The store with a node more, and the name that the node takes. -/
def add (s : Store) (n : Node) : Store × NodeId :=
  let id : NodeId := ⟨s.nodes.size⟩
  ({ s with
      nodes := s.nodes.push { n with id }
      labelIndex := n.labels.foldl (fun index label => index.note id label) s.labelIndex }, id)

/-- The store after a change of one node. -/
def modifyNode (s : Store) (id : NodeId) (change : Node → Node) : Store :=
  { s with nodes := s.nodes.modify id.index change }

/-- A change in place gives a result or is refused. A store is left behind either way. -/
abbrev InPlace (α : Type) := EStateM StoreError Store α

/-- The store that a change leaves behind, carried out or refused. -/
def InPlace.left {α : Type} (change : InPlace α) (s : Store) : Store :=
  match change.run s with
  | .ok _ t => t
  | .error _ t => t

/-- The store that a change makes and its result, or why it is refused. -/
def InPlace.outcome {α : Type} (change : InPlace α) (s : Store) : Except StoreError (Store × α) :=
  match change.run s with
  | .ok a t => .ok (t, a)
  | .error e _ => .error e

/-- Sets a property; the result is the one that was there before. -/
def replaceProperty (id : NodeId) (key : String) (value : Property) :
    InPlace (Option Property) := do
  match (← get).node? id with
  | none => throw (.nodeNotFound id)
  | some n =>
    modify fun s => s.modifyNode id (fun n => n.set key value)
    return n.get? key

/-- Joins `owner` to `target`. Outgoing, the edge leads from the owner to the target; incoming, it
leads from the target to the owner. A missing owner is reported before a missing target. -/
def join (owner : NodeId) (group : Group) (target : NodeId) (direction : Direction) :
    InPlace Unit := do
  if !(← get).hasNode owner then throw (.nodeNotFound owner)
  if !(← get).hasNode target then throw (.invalidEdgeTarget target)
  let (source, sink) := match direction with
    | .outgoing => (owner, target)
    | .incoming => (target, owner)
  modify fun s => s.modifyNode owner (fun n => n.record direction source sink group)
  modify fun s => s.modifyNode target (fun n => n.record direction.reverse source sink group)
  modify fun s => { s with edgeCount := s.edgeCount + 1 }

/-- Sets a property; the answer holds the one that was there before. -/
def setProperty (s : Store) (id : NodeId) (key : String) (value : Property) :
    Except StoreError (Store × Option Property) :=
  (replaceProperty id key value).outcome s

/-- Joins `owner` to `target`. -/
def addEdge (s : Store) (owner : NodeId) (group : Group) (target : NodeId) (direction : Direction) :
    Except StoreError Store :=
  ((join owner group target direction).outcome s).map Prod.fst

/-- Joins a function to one of its parameters. -/
def addParameter (s : Store) (function parameter : NodeId) : Except StoreError Store :=
  s.addEdge function parameters parameter .outgoing

/-! ### Small facts -/

theorem node?_add (s : Store) (n : Node) (id : NodeId) :
    (s.add n).1.node? id = if id.index = s.size then some { n with id } else s.node? id := by
  obtain ⟨i⟩ := id
  simp only [add, node?, size, Array.getElem?_push]
  split <;> simp_all

theorem node?_modifyNode (s : Store) (id other : NodeId) (change : Node → Node) :
    (s.modifyNode id change).node? other
      = if other = id then (s.node? other).map change else s.node? other := by
  obtain ⟨i⟩ := id
  obtain ⟨j⟩ := other
  simp only [modifyNode, node?, Array.getElem?_modify, NodeId.mk.injEq]
  by_cases h : i = j
  · subst h; simp
  · simp [h, Ne.symm h]

/-- Setting a property, as it is carried out. -/
theorem run_replaceProperty (s : Store) (id : NodeId) (key : String) (value : Property) :
    (replaceProperty id key value).run s = match s.node? id with
      | none => .error (.nodeNotFound id) s
      | some n => .ok (n.get? key) (s.modifyNode id (fun n => n.set key value)) := by
  simp only [replaceProperty, EStateM.run_bind, EStateM.run_get]
  cases s.node? id <;> rfl

/-- Joining two nodes, as it is carried out: nothing is changed before both were looked for. -/
theorem run_join (s : Store) (owner : NodeId) (group : Group) (target : NodeId) (d : Direction) :
    (join owner group target d).run s =
      if !s.hasNode owner then .error (.nodeNotFound owner) s
      else if !s.hasNode target then .error (.invalidEdgeTarget target) s
      else
        let (source, sink) := match d with
          | .outgoing => (owner, target)
          | .incoming => (target, owner)
        let joined := s.modifyNode owner (fun n => n.record d source sink group)
        let joined := joined.modifyNode target (fun n => n.record d.reverse source sink group)
        .ok () { joined with edgeCount := joined.edgeCount + 1 } := by
  cases howner : s.hasNode owner <;> cases htarget : s.hasNode target <;>
    simp [join, howner, htarget]

end Store
end CodeGraph
