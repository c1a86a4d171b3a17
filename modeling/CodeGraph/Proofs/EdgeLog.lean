import CodeGraph.Proofs.EdgeLists
import CodeGraph.Proofs.Growth

/-!
The edges of a store as a log.

The log of a sequence of changes holds the edges that it joins, in their order. If the nodes that
are added bring no edges of their own, the lists of every node can be read off the log.

* `Store.joined`, `Store.carriedOut`: the log of a sequence of changes, and the changes not refused.
* `entriesOf`: the entries that some edges make in the list of a group.
* `EdgeLists.groups_recordAll`, `EdgeLists.ofGroup_recordAll_empty`: the groups of lists stand in
  the order of first use, and lists filled from a sequence of edges hold exactly these entries.
* `listsAt_run`: the lists of a node are filled from the edges of the log at the node.
* `Store.degreeSum`: the number of entries in a direction over all nodes, which a joined edge raises
  by one.
* `Store.run_refines_log`: the store after any sequence of changes against its log.
-/

namespace CodeGraph

/-! ### The log of a sequence of changes -/

namespace Store

/-- The edges that a sequence of changes joins, in their order. -/
def joined (s : Store) : List Change → List Link
  | [] => []
  | c :: rest => (s.joined? c).toList ++ (s.after c).joined rest

/-- The changes of a sequence that are carried out. -/
def carriedOut (s : Store) : List Change → List Change
  | [] => []
  | c :: rest =>
    match s.perform c with
    | .ok t => c :: t.carriedOut rest
    | .error _ => s.carriedOut rest

lemma joined_cons (s : Store) (c : Change) (rest : List Change) :
    s.joined (c :: rest) = (s.joined? c).toList ++ (s.after c).joined rest := rfl

/-- The log of a sequence in two parts. -/
lemma joined_append (s : Store) (first second : List Change) :
    s.joined (first ++ second) = s.joined first ++ (s.run first).joined second := by
  induction first generalizing s with
  | nil => rfl
  | cons c rest ih =>
      rw [List.cons_append, joined_cons, joined_cons, run_cons, ih, List.append_assoc]

/-- A refused change at the end of a sequence changes nothing. -/
lemma run_concat_of_error {s : Store} {changes : List Change} {c : Change} {e : StoreError}
    (h : (s.run changes).perform c = .error e) : s.run (changes ++ [c]) = s.run changes := by
  rw [run_append, run_cons, run_nil, after_of_error h]

/-- **Refused changes leave no trace**: the store is the one that the other changes make. -/
lemma run_carriedOut (s : Store) (changes : List Change) :
    s.run (s.carriedOut changes) = s.run changes := by
  induction changes generalizing s with
  | nil => rfl
  | cons c rest ih =>
      rw [carriedOut, run_cons]
      cases hc : s.perform c with
      | ok t => rw [run_cons, after_of_ok hc, ih]
      | error e => rw [after_of_error hc, ih]

end Store

/-! ### Lists filled from a sequence of edges -/

/-- The entries that some edges make in the list of a group: one for each edge of the group,
numbered in their order. -/
def entriesOf (links : List Link) (group : Group) : List Edge :=
  (links.filter (fun l => l.group = group)).zipIdx.map
    (fun p => ⟨p.1.source, p.1.sink, group, p.2⟩)

lemma entriesOf_concat (links : List Link) (l : Link) (group : Group) :
    entriesOf (links ++ [l]) group
      = if l.group = group
        then entriesOf links group ++ [⟨l.source, l.sink, group, (entriesOf links group).length⟩]
        else entriesOf links group := by
  by_cases h : l.group = group <;> simp [entriesOf, List.filter_append, List.zipIdx_append, h]

namespace EdgeLists

/-- The lists with some edges more, recorded one after another. -/
def recordAll (e : EdgeLists) (links : List Link) : EdgeLists :=
  links.foldl (fun e l => e.record l.source l.sink l.group) e

lemma recordAll_concat (e : EdgeLists) (links : List Link) (l : Link) :
    e.recordAll (links ++ [l]) = (e.recordAll links).record l.source l.sink l.group := by
  simp [recordAll]

/-- The groups of lists stand in the order of first use: those of edges recorded later follow, each
where it occurs first. -/
lemma groups_recordAll (e : EdgeLists) (links : List Link) :
    (e.recordAll links).groups = (e.groups ++ links.map Link.group).eraseDups := by
  induction links using List.reverseRecOn with
  | nil =>
      have hgroups : e.groups.Nodup := e.distinct
      rw [List.map_nil, List.append_nil, eraseDups_of_nodup hgroups]
      rfl
  | append_singleton links l ih =>
      rw [recordAll_concat, groups_record, ih, List.map_append, List.map_singleton,
        ← List.append_assoc, eraseDups_concat]
      simp only [List.mem_eraseDups]

/-- The list of a group in lists filled from a sequence of edges holds the entries of its edges. -/
lemma ofGroup_recordAll_empty (links : List Link) (group : Group) :
    (recordAll {} links).ofGroup group = entriesOf links group := by
  induction links using List.reverseRecOn with
  | nil => rfl
  | append_singleton links l ih =>
      rw [recordAll_concat, ofGroup_record, entriesOf_concat]
      by_cases h : group = l.group
      · subst h
        rw [if_pos rfl, if_pos rfl, ih]
      · rw [if_neg h, if_neg (Ne.symm h), ih]

end EdgeLists

/-! ### The lists of a node and the log -/

/-- A node without edges. -/
def Node.IsBare (n : Node) : Prop := n.outgoing = {} ∧ n.incoming = {}

lemma Node.IsBare.edges_eq {n : Node} (h : n.IsBare) (d : Direction) : n.edges d = {} := by
  cases d
  · exact h.1
  · exact h.2

namespace Store

/-- The lists of a node in a direction; a node that is not there has none. -/
def listsAt (s : Store) (id : NodeId) (d : Direction) : EdgeLists :=
  ((s.node? id).map (fun n => n.edges d)).getD {}

lemma listsAt_of_node? {s : Store} {id : NodeId} {n : Node} (h : s.node? id = some n)
    (d : Direction) :
    s.listsAt id d = n.edges d := by
  simp [listsAt, h]

lemma node?_size (s : Store) (id : NodeId) (h : id.index = s.size) : s.node? id = none := by
  simp [node?, h, size]

/-- A node more leaves the lists of the others, and is itself seen only if it brings entries. -/
lemma listsAt_add {s : Store} {n : Node} {id : NodeId} {d : Direction}
    (h : s.hasNode id ∨ n.edges d = {}) : (s.add n).1.listsAt id d = s.listsAt id d := by
  rw [listsAt, node?_add]
  split
  · rename_i hid
    have hbare : n.edges d = {} := by
      refine h.resolve_left fun hnode => ?_
      have := (s.hasNode_iff id).1 hnode
      omega
    have hedges : ({ n with id } : Node).edges d = n.edges d := by cases d <;> rfl
    rw [listsAt, s.node?_size id hid, Option.map_some, Option.getD_some, hedges, hbare]
    rfl
  · rfl

lemma listsAt_link {s : Store} {l : Link} (hsource : s.hasNode l.source) (hsink : s.hasNode l.sink)
    (id : NodeId) (d : Direction) :
    (s.link l).listsAt id d
      = if l.nearEnd d = id then (s.listsAt id d).record l.source l.sink l.group
        else s.listsAt id d := by
  rw [listsAt, node?_link]
  cases hn : s.node? id with
  | some n => simp [listsAt, hn, Node.edges_linked]
  | none =>
      have hend : l.nearEnd d ≠ id := by
        rintro rfl
        have hnode : s.hasNode (l.nearEnd d) := by cases d <;> assumption
        obtain ⟨n, hsome⟩ := (s.hasNode_iff_node? _).1 hnode
        rw [hn] at hsome
        cases hsome
      simp [listsAt, hn, hend]

lemma listsAt_set (s : Store) (id other : NodeId) (key : String) (value : Property)
    (d : Direction) :
    (s.modifyNode id (fun n => n.set key value)).listsAt other d = s.listsAt other d := by
  rw [listsAt, node?_modifyNode, listsAt]
  split
  · cases s.node? other <;> cases d <;> rfl
  · rfl

/-- A change removes no node. -/
lemma hasNode_after {s : Store} {id : NodeId} (h : s.hasNode id) (c : Change) :
    (s.after c).hasNode id := by
  rw [hasNode_iff] at h ⊢
  obtain ⟨n, -, -, hafter⟩ | ⟨l, -, -, -, -, hafter⟩ | ⟨other, key, value, -, -, hafter⟩
      | ⟨-, -, hafter⟩ :=
    s.after_cases c <;> rw [hafter]
  · rw [size_add]
    omega
  · rwa [size_link]
  · rwa [size_modifyNode]
  · exact h

lemma hasNode_run {s : Store} {id : NodeId} (h : s.hasNode id) (changes : List Change) :
    (s.run changes).hasNode id :=
  run_induction (P := fun t => t.hasNode id) (fun _ c ht => hasNode_after ht c) h changes

/-- **The lists of a node are filled from the log**: a sequence of changes records at a node the
edges that it joins there, in their order. The node has to be there before, or every node that is
added must bring no entry in the direction. -/
lemma listsAt_run (s : Store) (changes : List Change) (id : NodeId) (d : Direction)
    (h : s.hasNode id ∨ ∀ n, .add n ∈ changes → n.edges d = {}) :
    (s.run changes).listsAt id d
      = (s.listsAt id d).recordAll ((s.joined changes).filter (fun l => l.nearEnd d = id)) := by
  induction changes generalizing s with
  | nil => rfl
  | cons c rest ih =>
      have hrest : (s.after c).hasNode id ∨ ∀ n, .add n ∈ rest → n.edges d = {} :=
        h.imp (fun hnode => hasNode_after hnode c) fun hbare n hn =>
          hbare n (List.mem_cons_of_mem _ hn)
      rw [run_cons, ih _ hrest, joined_cons]
      obtain ⟨n, rfl, hjoined, hafter⟩ | ⟨l, -, hjoined, hsource, hsink, hafter⟩ |
        ⟨other, key, value, -, hjoined, hafter⟩ | ⟨-, hjoined, hafter⟩ := s.after_cases c <;>
        rw [hafter, hjoined]
      · rw [listsAt_add (h.imp_right fun hbare => hbare n List.mem_cons_self)]
        rfl
      · rw [listsAt_link hsource hsink]
        by_cases hend : l.nearEnd d = id <;> simp [hend, EdgeLists.recordAll]
      · rw [listsAt_set]
        rfl
      · rfl

lemma listsAt_empty (id : NodeId) (d : Direction) : ({} : Store).listsAt id d = {} := rfl

/-- Both ends of a joined edge are in the store. -/
lemma hasNode_of_mem_joined {s : Store} {changes : List Change} {l : Link}
    (hl : l ∈ s.joined changes)
    (d : Direction) : (s.run changes).hasNode (l.nearEnd d) := by
  induction changes generalizing s with
  | nil => simp [joined] at hl
  | cons c rest ih =>
      rw [run_cons]
      rw [joined_cons] at hl
      rcases List.mem_append.1 hl with hl | hl
      · obtain ⟨n, -, hjoined, -⟩ | ⟨m, -, hjoined, hsource, hsink, -⟩ |
          ⟨id, key, value, -, hjoined, -⟩ | ⟨-, hjoined, -⟩ := s.after_cases c <;>
          rw [hjoined] at hl
        · simp at hl
        · obtain rfl : l = m := by simpa using hl
          have hend : s.hasNode (l.nearEnd d) := by cases d <;> assumption
          exact hasNode_run (hasNode_after hend c) rest
        · simp at hl
        · simp at hl
      · exact ih hl

/-! ### Counting entries -/

/-- The number of entries in a direction over all nodes. -/
def degreeSum (s : Store) (d : Direction) : Nat :=
  (s.nodes.toList.map (fun n => (n.edges d).degree)).sum

lemma degreeSum_add (s : Store) (n : Node) (d : Direction) :
    (s.add n).1.degreeSum d = s.degreeSum d + (n.edges d).degree := by
  have hedges : ∀ id, ({ n with id } : Node).edges d = n.edges d := fun id => by cases d <;> rfl
  simp [degreeSum, add, hedges]

/-- A change that raises the value of one member raises the sum by as much. -/
lemma sum_map_modify {α : Type} (xs : List α) (i : Nat) (hi : i < xs.length) {f : α → α}
    {g : α → Nat}
    {k : Nat} (h : ∀ x, g (f x) = g x + k) : ((xs.modify i f).map g).sum = (xs.map g).sum + k := by
  induction xs generalizing i with
  | nil => simp at hi
  | cons x rest ih =>
      cases i with
      | zero =>
          simp only [List.modify_zero_cons, List.map_cons, List.sum_cons, h]
          omega
      | succ i =>
          have hrest := ih i (by simpa using hi)
          simp only [List.modify_succ_cons, List.map_cons, List.sum_cons, hrest]
          omega

lemma degreeSum_modifyNode {s : Store} {id : NodeId} (hid : s.hasNode id) {change : Node → Node}
    {d : Direction} {k : Nat} (h : ∀ n, ((change n).edges d).degree = (n.edges d).degree + k) :
    (s.modifyNode id change).degreeSum d = s.degreeSum d + k := by
  have hi : id.index < s.nodes.toList.length := by simpa [hasNode] using hid
  rw [degreeSum, degreeSum, modifyNode, Array.toList_modify]
  exact sum_map_modify s.nodes.toList id.index hi h

/-- A joined edge is one entry more in each direction. -/
lemma degreeSum_link {s : Store} {l : Link} (hsource : s.hasNode l.source)
    (hsink : s.hasNode l.sink)
    (d : Direction) : (s.link l).degreeSum d = s.degreeSum d + 1 := by
  have hrecord : ∀ (side : Direction) (n : Node),
      ((n.record side l.source l.sink l.group).edges d).degree
        = (n.edges d).degree + if side = d then 1 else 0 := by
    intro side n
    cases side <;> cases d <;> first | exact EdgeLists.degree_record _ _ _ _ | rfl
  have hsink' : (s.modifyNode l.source
      (fun n => n.record .outgoing l.source l.sink l.group)).hasNode l.sink := by
    rw [hasNode_iff, size_modifyNode, ← hasNode_iff]
    exact hsink
  calc (s.link l).degreeSum d
      = ((s.modifyNode l.source
          (fun n => n.record .outgoing l.source l.sink l.group)).modifyNode l.sink
          (fun n => n.record .incoming l.source l.sink l.group)).degreeSum d := rfl
    _ = s.degreeSum d + (if Direction.outgoing = d then 1 else 0)
          + if Direction.incoming = d then 1 else 0 := by
        rw [degreeSum_modifyNode hsink' (hrecord .incoming),
          degreeSum_modifyNode hsource (hrecord .outgoing)]
    _ = s.degreeSum d + 1 := by cases d <;> simp

end Store

/-- The number of entries in a direction that a change brings with the node it adds. -/
def Change.brought (d : Direction) : Change → Nat
  | .add n => (n.edges d).degree
  | _ => 0

lemma Change.brought_of_ne_add {c : Change} (h : ∀ n, c ≠ .add n) (d : Direction) :
    c.brought d = 0 := by
  cases c with
  | add n => exact absurd rfl (h n)
  | addEdge owner group target side => rfl
  | addParameter function parameter => rfl
  | setProperty id key value => rfl

namespace Store

lemma degreeSum_set (s : Store) (id : NodeId) (key : String) (value : Property) (d : Direction) :
    (s.modifyNode id (fun n => n.set key value)).degreeSum d = s.degreeSum d := by
  rw [degreeSum, modifyNode, Array.toList_modify, map_modify_of_eq _ _ fun n => by cases d <;> rfl]
  rfl

/-- **Entries are counted**: the entries in a direction are those brought with nodes, and one for
each joined edge. -/
lemma degreeSum_run (s : Store) (changes : List Change) (d : Direction) :
    (s.run changes).degreeSum d
      = s.degreeSum d + (s.joined changes).length + (changes.map (Change.brought d)).sum := by
  induction changes generalizing s with
  | nil => simp [joined]
  | cons c rest ih =>
      rw [run_cons, ih, joined_cons, List.map_cons, List.sum_cons, List.length_append]
      obtain ⟨n, rfl, hjoined, hafter⟩ | ⟨l, hadd, hjoined, hsource, hsink, hafter⟩ |
        ⟨id, key, value, rfl, hjoined, hafter⟩ | ⟨hadd, hjoined, hafter⟩ := s.after_cases c <;>
        rw [hafter, hjoined]
      · rw [degreeSum_add, Change.brought, Option.toList_none, List.length_nil]
        omega
      · rw [degreeSum_link hsource hsink, Change.brought_of_ne_add hadd, Option.toList_some,
          List.length_singleton]
        omega
      · rw [degreeSum_set, Change.brought_of_ne_add (by simp), Option.toList_none, List.length_nil]
        omega
      · rw [Change.brought_of_ne_add hadd, Option.toList_none, List.length_nil]
        omega

/-- The count of a store is the number of edges joined. -/
lemma edgeCount_run (s : Store) (changes : List Change) :
    (s.run changes).edgeCount = s.edgeCount + (s.joined changes).length := by
  induction changes generalizing s with
  | nil => rfl
  | cons c rest ih =>
      rw [run_cons, ih, joined_cons, List.length_append]
      obtain ⟨n, -, hjoined, hafter⟩ | ⟨l, -, hjoined, -, -, hafter⟩ |
        ⟨id, key, value, -, hjoined, hafter⟩ |
        ⟨-, hjoined, hafter⟩ := s.after_cases c <;> rw [hafter, hjoined]
      · rw [Option.toList_none, List.length_nil, Nat.zero_add]
        rfl
      · rw [edgeCount_link, Option.toList_some, List.length_singleton]
        omega
      · rw [Option.toList_none, List.length_nil, Nat.zero_add]
        rfl
      · rw [Option.toList_none, List.length_nil, Nat.zero_add]

/-! ### Refusals -/

/-- An edge is refused exactly if an end is missing, and then for the owner before the target. -/
lemma addEdge_eq_error_iff (s : Store) (owner : NodeId) (group : Group) (target : NodeId)
    (d : Direction) (e : StoreError) :
    s.addEdge owner group target d = .error e
      ↔ (¬ s.hasNode owner ∧ e = .nodeNotFound owner)
        ∨ (s.hasNode owner ∧ ¬ s.hasNode target ∧ e = .invalidEdgeTarget target) := by
  rw [addEdge_eq]
  by_cases howner : s.hasNode owner <;> by_cases htarget : s.hasNode target <;>
    simp [howner, htarget, eq_comm]

/-- A property is refused exactly if its node is missing. -/
lemma setProperty_eq_error_iff (s : Store) (id : NodeId) (key : String) (value : Property)
    (e : StoreError) :
    s.setProperty id key value = .error e ↔ ¬ s.hasNode id ∧ e = .nodeNotFound id := by
  rw [hasNode_iff_node?, setProperty, InPlace.outcome, run_replaceProperty]
  cases s.node? id <;> simp [eq_comm]

/-! ### A store against its log -/

/-- **A store holds the edges of a log**: in each direction a node has, under each group, one entry
for each edge of the log that has its near end there, numbered in the order of the log; the groups
of a node stand in the order of first use; and the log accounts for the count of the store and for
all entries. -/
structure HoldsLog (s : Store) (log : List Link) : Prop where
  ofGroup_eq : ∀ id n d group, s.node? id = some n →
    (n.edges d).ofGroup group = entriesOf (log.filter (fun l => l.nearEnd d = id)) group
  edges_eq : ∀ id n d, s.node? id = some n →
    s.edges id none d
      = ((log.filter (fun l => l.nearEnd d = id)).map Link.group).eraseDups.flatMap
        (n.edges d).ofGroup
  edgeCount_eq : s.edgeCount = log.length
  degreeSum_eq : ∀ d, s.degreeSum d = log.length

/-- A store made by changes that add bare nodes holds the edges that were joined. -/
lemma holdsLog_run (changes : List Change) (hbare : ∀ n, .add n ∈ changes → n.IsBare) :
    (run {} changes).HoldsLog (joined {} changes) := by
  have hlists : ∀ id n d, (run {} changes).node? id = some n →
      n.edges d = EdgeLists.recordAll {}
        ((joined {} changes).filter (fun l => l.nearEnd d = id)) := by
    intro id n d hn
    rw [← listsAt_of_node? hn, listsAt_run _ _ id d (.inr fun m hm => (hbare m hm).edges_eq d),
      listsAt_empty]
  have hbrought : ∀ d, (changes.map (Change.brought d)).sum = 0 := by
    intro d
    refine List.sum_eq_zero fun x hx => ?_
    obtain ⟨c, hc, rfl⟩ := List.mem_map.1 hx
    cases c with
    | add n => rw [Change.brought, (hbare n hc).edges_eq d]; rfl
    | addEdge owner group target side => rfl
    | addParameter function parameter => rfl
    | setProperty id key value => rfl
  refine ⟨fun id n d group hn => ?_, fun id n d hn => ?_, ?_, fun d => ?_⟩
  · rw [hlists id n d hn, EdgeLists.ofGroup_recordAll_empty]
  · have hall : (run {} changes).edges id none d = (n.edges d).all := by
      rw [edges, hn]
      rfl
    rw [hall, EdgeLists.all_eq_flatMap, hlists id n d hn, EdgeLists.groups_recordAll]
    rfl
  · rw [edgeCount_run]
    exact Nat.zero_add _
  · rw [degreeSum_run, hbrought d]
    exact Nat.zero_add _

/-- **A store refines the log of its edges.** Whatever changes are made of the empty store, as long
as the nodes added are bare, the store holds the edges that were joined. A change is refused exactly
if a node that it names is missing, the owner of an edge being missed first; a refused change leaves
the store as it is, and the changes that were carried out make the same store by themselves. -/
theorem run_refines_log (changes : List Change) (hbare : ∀ n, .add n ∈ changes → n.IsBare) :
    (run {} changes).HoldsLog (joined {} changes)
      ∧ (∀ (s : Store) owner group target d e, s.addEdge owner group target d = .error e
          ↔ (¬ s.hasNode owner ∧ e = .nodeNotFound owner)
            ∨ (s.hasNode owner ∧ ¬ s.hasNode target ∧ e = .invalidEdgeTarget target))
      ∧ (∀ (s : Store) function parameter e, s.addParameter function parameter = .error e
          ↔ (¬ s.hasNode function ∧ e = .nodeNotFound function)
            ∨ (s.hasNode function ∧ ¬ s.hasNode parameter ∧ e = .invalidEdgeTarget parameter))
      ∧ (∀ (s : Store) id key value e, s.setProperty id key value = .error e
          ↔ ¬ s.hasNode id ∧ e = .nodeNotFound id)
      ∧ (∀ (s t : Store) (c : Change) e, c.inPlace.run s = .error e t → t = s)
      ∧ (∀ (s : Store) before c e, (s.run before).perform c = .error e →
          s.run (before ++ [c]) = s.run before)
      ∧ run {} (carriedOut {} changes) = run {} changes :=
  ⟨holdsLog_run changes hbare,
    fun s owner group target d e => s.addEdge_eq_error_iff owner group target d e,
    fun s function parameter e => s.addEdge_eq_error_iff function parameters parameter .outgoing e,
    fun s id key value e => s.setProperty_eq_error_iff id key value e,
    fun _ _ _ _ h => eq_of_run_inPlace h,
    fun _ _ _ _ h => run_concat_of_error h,
    run_carriedOut {} changes⟩

/-- A node joined to itself from its incoming side and then to a node that is not there: the log
holds the loop alone. -/
theorem run_refines_log_of_loop :
    (∀ n, Change.add n ∈ [.add { kind := .node }, .addEdge ⟨0⟩ ⟨"calls"⟩ ⟨0⟩ .incoming,
        .addEdge ⟨0⟩ ⟨"calls"⟩ ⟨1⟩ .outgoing] → n.IsBare)
      ∧ (run {} [.add { kind := .node }, .addEdge ⟨0⟩ ⟨"calls"⟩ ⟨0⟩ .incoming,
        .addEdge ⟨0⟩ ⟨"calls"⟩ ⟨1⟩ .outgoing]).HoldsLog [⟨⟨0⟩, ⟨"calls"⟩, ⟨0⟩⟩] := by
  have hbare : ∀ n, Change.add n ∈ [.add { kind := .node }, .addEdge ⟨0⟩ ⟨"calls"⟩ ⟨0⟩ .incoming,
      .addEdge ⟨0⟩ ⟨"calls"⟩ ⟨1⟩ .outgoing] → n.IsBare := by
    intro n hn
    obtain rfl : n = { kind := .node } := by simpa using hn
    exact ⟨rfl, rfl⟩
  exact ⟨hbare, (run_refines_log _ hbare).1⟩

end Store
end CodeGraph
