import CodeGraph.Store
import Mathlib.Tactic

/-!
Sequences of changes of a store.

A store grows by changes, each of which is carried out or refused. A refused change leaves the store
as it was.

* `Change`, `Change.inPlace`: a change, and how it is made in place.
* `Store.after`, `Store.run`: the store left by a change, and by a sequence of them.
* `eq_of_run_inPlace`: a refused change leaves the store as it was.
* `Store.Reachable`: the stores that changes make of the empty one.
* `Change.link?`, `Store.link`: the edge that a change asks for, from its source to its sink on
  whichever side it was asked for; `addEdge_eq` says when it is joined.
* `after_cases`: what a change does.
* `Reachable.indexed`: in a reachable store the name of a node is its place, and the index of a
  label lists the nodes that carry it.
-/

namespace CodeGraph

/-! ### Changes -/

/-- A change of a store. The node of an addition is any node: it may come from a store, with the
name and the edges that it has there. -/
inductive Change
  | add (n : Node)
  | addEdge (owner : NodeId) (group : Group) (target : NodeId) (direction : Direction)
  | addParameter (function parameter : NodeId)
  | setProperty (id : NodeId) (key : String) (value : Property)

/-- A change as it is made in place. -/
def Change.inPlace : Change → Store.InPlace Unit
  | .add n => modify fun s => (s.add n).1
  | .addEdge owner group target direction => Store.join owner group target direction
  | .addParameter function parameter => Store.join function Store.parameters parameter .outgoing
  | .setProperty id key value => do let _ ← Store.replaceProperty id key value

namespace Store

/-- The store that a change makes of another, or why it is refused. -/
def perform (s : Store) : Change → Except StoreError Store
  | .add n => .ok (s.add n).1
  | .addEdge owner group target direction => s.addEdge owner group target direction
  | .addParameter function parameter => s.addParameter function parameter
  | .setProperty id key value => (s.setProperty id key value).map Prod.fst

/-- The store that a change leaves behind, carried out or refused. -/
def after (s : Store) (c : Change) : Store := c.inPlace.left s

/-- The store after a sequence of changes. -/
def run (s : Store) (changes : List Change) : Store := changes.foldl after s

/-- The stores that changes make of the empty one. -/
def Reachable (s : Store) : Prop := ∃ changes, s = run {} changes

@[simp] lemma run_nil (s : Store) : s.run [] = s := rfl

@[simp] lemma run_cons (s : Store) (c : Change) (rest : List Change) :
    s.run (c :: rest) = (s.after c).run rest := rfl

lemma run_append (s : Store) (first second : List Change) :
    s.run (first ++ second) = (s.run first).run second := by
  simp [run, List.foldl_append]

/-- **The invariant principle**: what a change keeps, a sequence of changes keeps. -/
lemma run_induction {P : Store → Prop} (step : ∀ s c, P s → P (s.after c)) {s : Store} (h : P s)
    (changes : List Change) : P (s.run changes) := by
  induction changes generalizing s with
  | nil => exact h
  | cons c rest ih => exact ih (step s c h)

end Store

/-! ### Edges, seen from their source -/

/-- An edge from its source to its sink. -/
structure Link where
  source : NodeId
  group : Group
  sink : NodeId
deriving DecidableEq

/-- The edge that a change asks for. Asked for at its sink, it still leads from the source to the
sink. -/
def Change.link? : Change → Option Link
  | .addEdge owner group target .outgoing => some ⟨owner, group, target⟩
  | .addEdge owner group target .incoming => some ⟨target, group, owner⟩
  | .addParameter function parameter => some ⟨function, Store.parameters, parameter⟩
  | .add _ => none
  | .setProperty _ _ _ => none

/-- The end of an edge at which it is recorded in a direction. -/
def Link.nearEnd (l : Link) : Direction → NodeId
  | .outgoing => l.source
  | .incoming => l.sink

namespace Store

/-- The store with an edge more, recorded at its source and at its sink. -/
def link (s : Store) (l : Link) : Store :=
  let left := s.modifyNode l.source (fun n => n.record .outgoing l.source l.sink l.group)
  let arrived := left.modifyNode l.sink (fun n => n.record .incoming l.source l.sink l.group)
  { arrived with edgeCount := arrived.edgeCount + 1 }

/-- Changes of nodes that commute can be made in either order. -/
lemma modifyNode_comm (s : Store) (a b : NodeId) {f g : Node → Node} (h : ∀ n, f (g n) = g (f n)) :
    (s.modifyNode a f).modifyNode b g = (s.modifyNode b g).modifyNode a f := by
  have hnodes : (s.nodes.modify a.index f).modify b.index g
      = (s.nodes.modify b.index g).modify a.index f := by
    refine Array.ext_getElem? fun i => ?_
    simp only [Array.getElem?_modify]
    by_cases ha : a.index = i <;> by_cases hb : b.index = i <;> simp [ha, hb, Function.comp_def, h]
  simp [modifyNode, hnodes]

/-- **A refused change leaves the store as it was.** -/
lemma eq_of_run_inPlace {s t : Store} {c : Change} {e : StoreError}
    (h : c.inPlace.run s = .error e t) : t = s := by
  have hjoin : ∀ {owner group target d}, (join owner group target d).run s
      = .error e t → t = s := by
    intro owner group target d h
    rw [run_join] at h
    split_ifs at h <;> cases h <;> rfl
  cases c with
  | add n => cases h
  | addEdge owner group target d => exact hjoin h
  | addParameter function parameter => exact hjoin h
  | setProperty id key value =>
      rw [Change.inPlace, EStateM.run_bind, run_replaceProperty] at h
      cases hn : s.node? id with
      | none =>
          rw [hn] at h
          cases h
          rfl
      | some n =>
          rw [hn] at h
          cases h

/-- A change makes of a store what it makes of it in place. -/
lemma perform_eq (s : Store) (c : Change) : s.perform c = (c.inPlace.outcome s).map Prod.fst := by
  cases c with
  | add n => rfl
  | addEdge owner group target d => rfl
  | addParameter function parameter => rfl
  | setProperty id key value =>
      rw [perform, setProperty, InPlace.outcome, InPlace.outcome, Change.inPlace, EStateM.run_bind]
      cases (replaceProperty id key value).run s <;> rfl

lemma after_of_ok {s t : Store} {c : Change} (h : s.perform c = .ok t) : s.after c = t := by
  rw [perform_eq, InPlace.outcome] at h
  rw [after, InPlace.left]
  cases hrun : c.inPlace.run s with
  | ok a t' =>
      rw [hrun] at h
      cases h
      rfl
  | error e t' =>
      rw [hrun] at h
      cases h

lemma after_of_error {s : Store} {c : Change} {e : StoreError} (h : s.perform c = .error e) :
    s.after c = s := by
  rw [perform_eq, InPlace.outcome] at h
  rw [after, InPlace.left]
  cases hrun : c.inPlace.run s with
  | ok a t =>
      rw [hrun] at h
      cases h
  | error e' t => exact eq_of_run_inPlace hrun

/-- **Adding an edge**: a missing owner is refused first, then a missing target; otherwise the edge
is joined. -/
lemma addEdge_eq (s : Store) (owner : NodeId) (group : Group) (target : NodeId) (d : Direction) :
    s.addEdge owner group target d
      = if !s.hasNode owner then .error (.nodeNotFound owner)
        else if !s.hasNode target then .error (.invalidEdgeTarget target)
        else .ok (s.link (match d with
          | .outgoing => ⟨owner, group, target⟩
          | .incoming => ⟨target, group, owner⟩)) := by
  rw [addEdge, InPlace.outcome, run_join]
  cases d with
  | outgoing => split_ifs <;> rfl
  | incoming =>
      have hcomm := s.modifyNode_comm owner target
        (f := fun n => n.record .incoming target owner group)
        (g := fun n => n.record .outgoing target owner group) (fun _ => rfl)
      simp only [link, Direction.reverse, hcomm]
      split_ifs <;> rfl

/-- What setting a property does, as one equation. -/
lemma setProperty_eq (s : Store) (id : NodeId) (key : String) (value : Property) :
    (s.setProperty id key value).map Prod.fst
      = if s.hasNode id then .ok (s.modifyNode id (fun n => n.set key value))
        else .error (.nodeNotFound id) := by
  rw [setProperty, InPlace.outcome, run_replaceProperty]
  by_cases h : id.index < s.nodes.size
  · simp [node?, hasNode, h, Except.map]
  · simp [node?, hasNode, h, Except.map]

/-- The edge that a change joins, if it is one that is carried out. -/
def joined? (s : Store) (c : Change) : Option Link :=
  match s.perform c with
  | .ok _ => c.link?
  | .error _ => none

/-- A change that joins two nodes of the store is carried out. -/
lemma perform_of_link? {s : Store} {c : Change} {l : Link} (hl : c.link? = some l)
    (hsource : s.hasNode l.source) (hsink : s.hasNode l.sink) : s.perform c = .ok (s.link l) := by
  cases c with
  | add n => simp [Change.link?] at hl
  | setProperty id key value => simp [Change.link?] at hl
  | addEdge owner group target d =>
      cases d <;> (cases hl; simp_all [perform, addEdge_eq])
  | addParameter function parameter =>
      cases hl
      simp_all [perform, addParameter, addEdge_eq]

/-- A change that names a node which is not there is refused. -/
lemma perform_of_link?_of_not {s : Store} {c : Change} {l : Link} (hl : c.link? = some l)
    (h : ¬ (s.hasNode l.source ∧ s.hasNode l.sink)) : ∃ e, s.perform c = .error e := by
  have key : ∀ owner group target d,
      ¬ (s.hasNode owner ∧ s.hasNode target) → ∃ e, s.addEdge owner group target d = .error e := by
    intro owner group target d hnot
    rw [addEdge_eq]
    by_cases howner : s.hasNode owner
    · have htarget : ¬ s.hasNode target := fun ht => hnot ⟨howner, ht⟩
      exact ⟨.invalidEdgeTarget target, by simp [howner, htarget]⟩
    · exact ⟨.nodeNotFound owner, by simp [howner]⟩
  cases c with
  | add n => simp [Change.link?] at hl
  | setProperty id key value => simp [Change.link?] at hl
  | addEdge owner group target d =>
      cases d <;> cases hl
      · exact key _ _ _ _ h
      · exact key _ _ _ _ fun hboth => h hboth.symm
  | addParameter function parameter =>
      cases hl
      exact key _ _ _ _ h

/-- **What a change does**: it adds a node, joins two nodes of the store, sets a property of one, or
is refused and leaves the store as it is. -/
lemma after_cases (s : Store) (c : Change) :
    (∃ n, c = .add n ∧ s.joined? c = none ∧ s.after c = (s.add n).1)
      ∨ (∃ l, (∀ n, c ≠ .add n) ∧ s.joined? c = some l ∧ s.hasNode l.source ∧ s.hasNode l.sink
          ∧ s.after c = s.link l)
      ∨ (∃ id key value, c = .setProperty id key value ∧ s.joined? c = none
          ∧ s.after c = s.modifyNode id (fun n => n.set key value))
      ∨ (∀ n, c ≠ .add n) ∧ s.joined? c = none ∧ s.after c = s := by
  cases hlink : c.link? with
  | some l =>
      have hadd : ∀ n, c ≠ .add n := by
        rintro n rfl
        cases hlink
      by_cases hends : s.hasNode l.source ∧ s.hasNode l.sink
      · have hok := perform_of_link? hlink hends.1 hends.2
        exact .inr (.inl ⟨l, hadd, by simp [joined?, hok, hlink], hends.1, hends.2,
          after_of_ok hok⟩)
      · obtain ⟨e, herr⟩ := perform_of_link?_of_not hlink hends
        exact .inr (.inr (.inr ⟨hadd, by simp [joined?, herr], after_of_error herr⟩))
  | none =>
      have hjoined : s.joined? c = none := by
        rw [joined?, hlink]
        split <;> rfl
      cases c with
      | add n => exact .inl ⟨n, rfl, hjoined, rfl⟩
      | addEdge owner group target d => cases d <;> simp [Change.link?] at hlink
      | addParameter function parameter => simp [Change.link?] at hlink
      | setProperty id key value =>
          have hperform := s.setProperty_eq id key value
          by_cases hid : s.hasNode id
          · rw [if_pos hid] at hperform
            exact .inr (.inr (.inl ⟨id, key, value, rfl, hjoined, after_of_ok hperform⟩))
          · rw [if_neg hid] at hperform
            exact .inr (.inr (.inr ⟨by simp, hjoined, after_of_error hperform⟩))

end Store

/-! ### The parts of a store after an edge -/

/-- A node of a name after an edge has been recorded at its ends. -/
def Node.linked (n : Node) (id : NodeId) (l : Link) : Node :=
  { n with
    outgoing := if id = l.source then n.outgoing.record l.source l.sink l.group else n.outgoing
    incoming := if id = l.sink then n.incoming.record l.source l.sink l.group else n.incoming }

lemma Node.edges_linked (n : Node) (id : NodeId) (l : Link) (d : Direction) :
    (n.linked id l).edges d
      = if l.nearEnd d = id then (n.edges d).record l.source l.sink l.group else n.edges d := by
  cases d <;> simp [Node.linked, Node.edges, Link.nearEnd, eq_comm]

namespace Store

/-- A link changes the nodes at its ends, and no other. -/
lemma node?_link (s : Store) (l : Link) (id : NodeId) :
    (s.link l).node? id = (s.node? id).map (fun n => n.linked id l) := by
  have h : (s.link l).node? id = ((s.modifyNode l.source
      (fun n => n.record .outgoing l.source l.sink l.group)).modifyNode l.sink
      (fun n => n.record .incoming l.source l.sink l.group)).node? id := rfl
  rw [h, node?_modifyNode, node?_modifyNode]
  cases s.node? id with
  | none => simp
  | some n =>
      simp only [Node.linked, Option.map_some]
      split_ifs <;> rfl

@[simp] lemma edgeCount_link (s : Store) (l : Link) : (s.link l).edgeCount = s.edgeCount + 1 := rfl

@[simp] lemma size_modifyNode (s : Store) (id : NodeId) (change : Node → Node) :
    (s.modifyNode id change).size = s.size := by
  simp [modifyNode, size]

@[simp] lemma size_link (s : Store) (l : Link) : (s.link l).size = s.size := by
  simp [link, modifyNode, size]

@[simp] lemma size_add (s : Store) (n : Node) : (s.add n).1.size = s.size + 1 := by
  simp [add, size]

lemma hasNode_iff (s : Store) (id : NodeId) : s.hasNode id ↔ id.index < s.size := by
  simp [hasNode, size]

lemma hasNode_iff_node? (s : Store) (id : NodeId) : s.hasNode id ↔ ∃ n, s.node? id = some n := by
  simp only [hasNode, node?, decide_eq_true_eq]
  constructor
  · intro h
    exact ⟨_, Array.getElem?_eq_getElem h⟩
  · rintro ⟨n, hn⟩
    exact (Array.getElem?_eq_some_iff.1 hn).1

/-! ### Names and the index of labels -/

/-- In a store in order the name of a node is its place, and the index of a label lists the names of
the nodes that carry it, in the order of the nodes. -/
structure Indexed (s : Store) : Prop where
  id_eq : ∀ id n, s.node? id = some n → n.id = id
  labelIds_eq : ∀ label,
    s.labelIds label = (s.nodes.toList.filter (fun n => n.hasLabel label)).map Node.id

lemma indexed_empty : Indexed {} where
  id_eq id n h := by simp [node?] at h
  labelIds_eq label := rfl

/-- A name is noted once under each label that its node carries. -/
lemma ids_foldl_note (labels : List Label) (hnodup : labels.Nodup) (index : LabelIndex)
    (id : NodeId) (label : Label) :
    (labels.foldl (fun index label => index.note id label) index).ids label
      = if label ∈ labels then index.ids label ++ [id] else index.ids label := by
  induction labels generalizing index with
  | nil => simp
  | cons first rest ih =>
      obtain ⟨hfirst, hrest⟩ := List.nodup_cons.1 hnodup
      rw [List.foldl_cons, ih hrest, LabelIndex.ids_note]
      by_cases h : label = first
      · simp [h, hfirst]
      · simp [h]

/-- A node that is added is put under each of its labels. -/
lemma Indexed.add {s : Store} (h : s.Indexed) (n : Node) : (s.add n).1.Indexed where
  id_eq id m hm := by
    rw [node?_add] at hm
    split at hm
    · cases hm
      rfl
    · exact h.id_eq id m hm
  labelIds_eq label := by
    have hids : (s.add n).1.labelIds label
        = if label ∈ n.labels then s.labelIds label ++ [(⟨s.nodes.size⟩ : NodeId)]
          else s.labelIds label :=
      ids_foldl_note n.labels (Kind.nodup_labels n.kind) s.labelIndex ⟨s.nodes.size⟩ label
    have hnodes : (s.add n).1.nodes.toList = s.nodes.toList
        ++ [{ n with id := ⟨s.nodes.size⟩ }] := by
      simp [Store.add]
    rw [hids, hnodes, List.filter_append, List.map_append, ← h.labelIds_eq]
    by_cases hl : label ∈ n.kind.labels <;> simp [Node.hasLabel, Node.labels, hl]

/-- What a change leaves of each member of a list, it leaves of the list. -/
lemma map_modify_of_eq {α β : Type} (l : List α) (i : Nat) {f : α → α} {g : α → β}
    (h : ∀ x, g (f x) = g x) : (l.modify i f).map g = l.map g := by
  refine List.ext_getElem? fun j => ?_
  simp only [List.getElem?_map, List.getElem?_modify]
  split <;> cases l[j]? <;> simp [h]

lemma Indexed.modifyNode {s : Store} (h : s.Indexed) (id : NodeId) {change : Node → Node}
    (hid : ∀ n, (change n).id = n.id) (hkind : ∀ n, (change n).kind = n.kind) :
    (s.modifyNode id change).Indexed where
  id_eq other m hm := by
    rw [node?_modifyNode] at hm
    split at hm
    · obtain ⟨n, hn, rfl⟩ := Option.map_eq_some_iff.1 hm
      rw [hid]
      exact h.id_eq other n hn
    · exact h.id_eq other m hm
  labelIds_eq label := by
    have hview : ∀ nodes : List Node, (nodes.filter (fun n => n.hasLabel label)).map Node.id
        = ((nodes.map (fun n => (n.id, n.kind))).filter (fun p => decide (label ∈ p.2.labels))).map
          Prod.fst := by
      intro nodes
      rw [List.filter_map, List.map_map]
      rfl
    calc (s.modifyNode id change).labelIds label
        = (s.nodes.toList.filter (fun n => n.hasLabel label)).map Node.id := h.labelIds_eq label
      _ = ((s.nodes.toList.modify id.index change).filter (fun n => n.hasLabel label)).map
        Node.id := by
          rw [hview, hview, map_modify_of_eq _ _ fun n => by simp [hid, hkind]]
      _ = _ := by simp [Store.modifyNode]

/-- **The index stays right**, whatever is done to the store. -/
lemma Indexed.after {s : Store} (h : s.Indexed) (c : Change) : (s.after c).Indexed := by
  obtain ⟨n, -, -, hafter⟩ | ⟨l, -, -, -, -, hafter⟩ | ⟨id, key, value, -, -, hafter⟩
      | ⟨-, -, hafter⟩ :=
    s.after_cases c <;> rw [hafter]
  · exact h.add n
  · have hrecord : ∀ (t : Store) (id : NodeId) (d : Direction), t.Indexed →
        (t.modifyNode id (fun n => n.record d l.source l.sink l.group)).Indexed :=
      fun t id d ht =>
        ht.modifyNode id (fun n => n.id_record d _ _ _) (fun n => n.kind_record d _ _ _)
    have harrived := hrecord _ l.sink .incoming (hrecord s l.source .outgoing h)
    exact ⟨harrived.id_eq, harrived.labelIds_eq⟩
  · exact h.modifyNode id (fun _ => rfl) (fun _ => rfl)
  · exact h

/-- **Every reachable store is in order.** -/
theorem Reachable.indexed {s : Store} (h : s.Reachable) : s.Indexed := by
  obtain ⟨changes, rfl⟩ := h
  exact run_induction (fun _ c hs => hs.after c) indexed_empty changes

end Store
end CodeGraph
