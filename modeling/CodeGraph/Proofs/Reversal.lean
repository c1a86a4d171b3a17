import CodeGraph.Proofs.EdgeIntegrity
import CodeGraph.Proofs.Rewriting

/-!
Paths read from their other end.

A path and its reversal are matched from opposite ends, along opposite lists of edges and with other
names for the nodes without a variable. They find the same, as every edge is recorded at both of its
ends.

* `PatternDirection.reversed`, `PathPattern.reversed`, `Query.reversed`: nodes and edges in opposite
  order, every edge drawn the other way.
* `Store.Whole.exists_mirror`, `Store.Whole.joins_reversed`: in a whole store an edge is followed
  back from its far end.
* `PathPattern.Matches.reversed`, `PathPattern.assigns_reversed_iff`: an assignment to a path, read
  backwards, is an assignment to the reversal, and gives every variable the same node.
* `Query.answer_reversed`: acceptance, answers and sets.
-/

namespace CodeGraph

/-! ### The other end -/

/-- The direction of an edge drawn from its other end. -/
def PatternDirection.reversed : PatternDirection → PatternDirection
  | outgoing => incoming
  | incoming => outgoing
  | both => both

@[simp] lemma PatternDirection.reversed_reversed (d : PatternDirection) :
    d.reversed.reversed = d := by
  cases d <;> rfl

lemma PatternDirection.reverse_mem_directions {d : PatternDirection} {side : Direction}
    (h : side ∈ d.directions) : side.reverse ∈ d.reversed.directions := by
  cases d <;> cases side <;> simp_all [directions, reversed, Direction.reverse]

/-- An edge of a pattern drawn from its other end. -/
def EdgePattern.reversed (e : EdgePattern) : EdgePattern :=
  { e with direction := e.direction.reversed }

@[simp] lemma EdgePattern.reversed_reversed (e : EdgePattern) : e.reversed.reversed = e := by
  simp [EdgePattern.reversed]

namespace PathPattern

/-- The path back from the end of some segments to a node, and from there on along segments that are
turned already. -/
def turn (n : NodePattern) (turned : List Segment) : List Segment → PathPattern
  | [] => ⟨n, turned⟩
  | segment :: rest => turn segment.node (⟨segment.edge.reversed, n⟩ :: turned) rest

/-- The path from its end to its start. -/
def reversed (p : PathPattern) : PathPattern := turn p.start [] p.segments

lemma nodes_turn (n : NodePattern) (turned segments : List Segment) :
    (turn n turned segments).nodes
      = (n :: segments.map Segment.node).reverse ++ turned.map Segment.node := by
  induction segments generalizing n turned with
  | nil => simp [turn, nodes]
  | cons segment rest ih => simp [turn, ih]

lemma edges_turn (n : NodePattern) (turned segments : List Segment) :
    (turn n turned segments).edges
      = ((segments.map Segment.edge).reverse.map EdgePattern.reversed)
        ++ turned.map Segment.edge := by
  induction segments generalizing n turned with
  | nil => simp [turn, edges]
  | cons segment rest ih => simp [turn, ih]

/-- The nodes of a reversed path stand in opposite order. -/
@[simp] lemma nodes_reversed (p : PathPattern) : p.reversed.nodes = p.nodes.reverse := by
  rw [reversed, nodes_turn]
  simp [nodes]

/-- The edges of a reversed path stand in opposite order and are drawn the other way. -/
@[simp] lemma edges_reversed (p : PathPattern) :
    p.reversed.edges = p.edges.reverse.map EdgePattern.reversed := by
  rw [reversed, edges_turn]
  simp [edges]

/-- A path is told by its nodes and its edges. -/
lemma ext_nodes_edges {p p' : PathPattern} (hnodes : p.nodes = p'.nodes)
    (hedges : p.edges = p'.edges) :
    p = p' := by
  have hzip : ∀ segments : List Segment,
      segments = List.zipWith Segment.mk (segments.map Segment.edge)
        (segments.map Segment.node) := by
    intro segments
    induction segments with
    | nil => rfl
    | cons segment rest ih => rw [List.map_cons, List.map_cons, List.zipWith_cons_cons, ← ih]
  obtain ⟨start, segments⟩ := p
  obtain ⟨start', segments'⟩ := p'
  obtain ⟨rfl, hnodes⟩ := List.cons.inj hnodes
  have hsegments : segments = segments' := by
    rw [hzip segments, hzip segments', hnodes, show segments.map Segment.edge = _ from hedges]
    rfl
  rw [hsegments]

@[simp] lemma reversed_reversed (p : PathPattern) : p.reversed.reversed = p := by
  refine ext_nodes_edges (by simp) ?_
  simp [List.map_reverse, Function.comp_def]

lemma nodeVariables_reversed (p : PathPattern) :
    p.reversed.nodeVariables = p.nodeVariables.reverse := by
  rw [nodeVariables, nodes_reversed, List.filterMap_reverse, nodeVariables]

lemma mem_nodeVariables_reversed {p : PathPattern} {name : String} :
    name ∈ p.reversed.nodeVariables ↔ name ∈ p.nodeVariables := by
  rw [nodeVariables_reversed, List.mem_reverse]

end PathPattern

/-- A query with its path read from the other end. -/
def Query.reversed (q : Query) : Query := q.mapPaths PathPattern.reversed

/-! ### Edges followed back -/

namespace Store.Whole

variable {s : Store}

/-- **An entry has a mirror image** at its far end: an entry of its group that leads back. -/
lemma exists_mirror (hs : s.Whole) {a b : NodeId} {n : Node} {d : Direction} {e : Edge}
    (hn : s.node? a = some n) (he : e ∈ (n.edges d).all) (hfar : e.farEnd d = b) :
    ∃ m e', s.node? b = some m ∧ e' ∈ (m.edges d.reverse).all ∧ e'.farEnd d.reverse = a
      ∧ e'.group = e.group := by
  subst hfar
  cases d with
  | outgoing =>
      obtain ⟨-, htarget⟩ := hs.outgoing a n e hn he
      obtain ⟨m, hm⟩ := (s.hasNode_iff_node? _).1 htarget
      have hpos : 0 < n.outgoing.all.countP (fun x => x.target = e.target ∧ x.group = e.group) :=
        List.countP_pos_iff.2 ⟨e, he, by simp⟩
      rw [hs.balanced a e.target n m e.group hn hm] at hpos
      obtain ⟨e', he', hback⟩ := List.countP_pos_iff.1 hpos
      obtain ⟨hsource, hgroup⟩ := of_decide_eq_true hback
      exact ⟨m, e', hm, he', hsource, hgroup⟩
  | incoming =>
      obtain ⟨-, hsource⟩ := hs.incoming a n e hn he
      obtain ⟨m, hm⟩ := (s.hasNode_iff_node? _).1 hsource
      have hpos : 0 < n.incoming.all.countP (fun x => x.source = e.source ∧ x.group = e.group) :=
        List.countP_pos_iff.2 ⟨e, he, by simp⟩
      rw [← hs.balanced e.source a m n e.group hm hn] at hpos
      obtain ⟨e', he', hback⟩ := List.countP_pos_iff.1 hpos
      obtain ⟨htarget, hgroup⟩ := of_decide_eq_true hback
      exact ⟨m, e', hm, he', htarget, hgroup⟩

/-- An edge of a pattern that joins a node to another joins the other to it when it is drawn the
other way. -/
lemma joins_reversed (hs : s.Whole) {e : EdgePattern} {a b : NodeId} (h : e.Joins s a b) :
    e.reversed.Joins s b a := by
  obtain ⟨n, d, entry, hn, hd, hentry, hfar, hgroup⟩ := h
  obtain ⟨m, entry', hm, hentry', hback, hsame⟩ := hs.exists_mirror hn hentry hfar
  exact ⟨m, d.reverse, entry', hm, PatternDirection.reverse_mem_directions hd, hentry', hback,
    hsame ▸ hgroup⟩

end Store.Whole

/-! ### Assignments read backwards -/

namespace PathPattern

variable {s : Store} {p : PathPattern} {r : Row}

lemma length_edges (p : PathPattern) : p.edges.length + 1 = p.nodes.length := by
  simp [edges, nodes]

/-- A place of the reversed path and the same place counted from the other end. -/
lemma getElem?_nodes_reversed {i j : Nat} (h : i + j + 1 = p.nodes.length) :
    p.reversed.nodes[i]? = p.nodes[j]? := by
  rw [nodes_reversed, List.getElem?_reverse' h]

lemma exists_of_getElem?_nodes_reversed {i : Nat} {n : NodePattern}
    (h : p.reversed.nodes[i]? = some n) :
    ∃ j, i + j + 1 = p.nodes.length ∧ p.nodes[j]? = some n := by
  have hlt := (List.getElem?_eq_some_iff.1 h).1
  rw [nodes_reversed, List.length_reverse] at hlt
  have hplace : i + (p.nodes.length - 1 - i) + 1 = p.nodes.length := by omega
  exact ⟨_, hplace, getElem?_nodes_reversed hplace ▸ h⟩

lemma Agrees.reversed (h : p.Agrees r) (hlen : r.length = p.nodes.length) :
    p.reversed.Agrees r.reverse := by
  intro i i' n n' name hn hn' hi hi'
  obtain ⟨j, hj, hn⟩ := exists_of_getElem?_nodes_reversed hn
  obtain ⟨j', hj', hn'⟩ := exists_of_getElem?_nodes_reversed hn'
  rw [List.getElem?_reverse' (hlen ▸ hj), List.getElem?_reverse' (hlen ▸ hj')]
  exact h j j' n n' name hn hn' hi hi'

/-- **An assignment to a path, read backwards**, is an assignment to the reversed path. -/
lemma Matches.reversed (hs : s.Whole) (h : p.Matches s r) : p.reversed.Matches s r.reverse where
  length_eq := by rw [List.length_reverse, h.length_eq, nodes_reversed, List.length_reverse]
  fits i n id hn hid := by
    obtain ⟨j, hj, hn⟩ := exists_of_getElem?_nodes_reversed hn
    rw [List.getElem?_reverse' (h.length_eq ▸ hj)] at hid
    exact h.fits j n id hn hid
  joined i segment a b hsegment ha hb := by
    have hedge : p.reversed.edges[i]? = some segment.edge := by
      rw [edges, List.getElem?_map, hsegment]
      rfl
    rw [edges_reversed, List.getElem?_map] at hedge
    obtain ⟨e, he, hturned⟩ := Option.map_eq_some_iff.1 hedge
    have hlt := (List.getElem?_eq_some_iff.1 he).1
    rw [List.length_reverse] at hlt
    have hnodes := p.length_edges
    -- the edge stands between the places `j` and `j + 1`, which the reversed path meets in opposite
    -- order
    obtain ⟨j, hj⟩ : ∃ j, i + j + 1 = p.edges.length := ⟨p.edges.length - 1 - i, by omega⟩
    rw [List.getElem?_reverse' hj, edges, List.getElem?_map] at he
    obtain ⟨segment', hsegment', rfl⟩ := Option.map_eq_some_iff.1 he
    rw [List.getElem?_reverse' (show i + (j + 1) + 1 = r.length by rw [h.length_eq]; omega)] at ha
    rw [List.getElem?_reverse' (show i + 1 + j + 1 = r.length by rw [h.length_eq]; omega)] at hb
    exact hturned ▸ hs.joins_reversed (h.joined j segment' b a hsegment' hb ha)
  agrees := h.agrees.reversed h.length_eq

lemma lookup_reversed (h : p.Agrees r) (hlen : r.length = p.nodes.length) {name : String}
    (hname : name ∈ p.nodeVariables) : p.reversed.lookup r.reverse name = p.lookup r name := by
  obtain ⟨i, n, hn, hwritten⟩ := mem_nodeVariables.1 (mem_nodeVariables_reversed.2 hname)
  rw [lookup_eq (h.reversed hlen) hn hwritten]
  obtain ⟨j, hj, hn⟩ := exists_of_getElem?_nodes_reversed hn
  rw [lookup_eq h hn hwritten, List.getElem?_reverse' (hlen ▸ hj)]

lemma Assigns.reversed (hs : s.Whole) {filter : Option Expr}
    (hvars : ∀ e ∈ filter, ∀ x ∈ e.vars, x ∈ p.nodeVariables) {name : String}
    (hname : name ∈ p.nodeVariables)
    {id : NodeId} (h : p.Assigns s filter name id) : p.reversed.Assigns s filter name id := by
  obtain ⟨r, hr, hfilter, hid⟩ := h
  have hlookup : ∀ x ∈ p.nodeVariables, p.reversed.lookup r.reverse x = p.lookup r x := fun x hx =>
    lookup_reversed hr.agrees hr.length_eq hx
  refine ⟨r.reverse, hr.reversed hs, fun e he => ?_, (hlookup name hname).trans hid⟩
  rw [Expr.holds_congr fun x hx => hlookup x (hvars e he x hx)]
  exact hfilter e he

/-- **A path and its reversal assign the same.** -/
lemma assigns_reversed_iff (hs : s.Whole) {filter : Option Expr}
    (hvars : ∀ e ∈ filter, ∀ x ∈ e.vars, x ∈ p.nodeVariables) {name : String}
    (hname : name ∈ p.nodeVariables)
    {id : NodeId} : p.reversed.Assigns s filter name id ↔ p.Assigns s filter name id := by
  refine ⟨fun h => ?_, fun h => h.reversed hs hvars hname⟩
  have hback := h.reversed hs (fun e he x hx => mem_nodeVariables_reversed.2 (hvars e he x hx))
    (mem_nodeVariables_reversed.2 hname)
  rwa [reversed_reversed] at hback

end PathPattern

/-! ### Queries read backwards -/

namespace Query

variable {s : Store} {q : Query} {c : ChainQuery} {p : PathPattern}

/-- The edges of the reversal of a path without a space in its variables can be steps of it: the
variables that are made up for its nodes are others, but they are made up. -/
lemma isStep_reversed (hc : q.compile = .ok c) (hp : q.path = .ok p)
    (hspace : ∀ name ∈ p.edgeVariables, ' ' ∉ name.toList) :
    ∀ e ∈ p.reversed.edges, e.IsStep (p.reversed.chain.nodes.map ChainNode.name) := by
  intro turned hturned
  rw [PathPattern.edges_reversed, List.mem_map] at hturned
  obtain ⟨e, he, rfl⟩ := hturned
  rw [List.mem_reverse] at he
  obtain ⟨hlength, hempty, hnew⟩ := isStep_of_compile hc hp e he
  refine ⟨hlength, hempty, fun name hname hmem => ?_⟩
  rcases PathPattern.mem_names_chain.1 hmem with hwritten | ⟨k, n, -, -, rfl⟩
  · refine hnew name hname (PathPattern.mem_names_chain.2 (.inl ?_))
    exact PathPattern.mem_nodeVariables_reversed.1 hwritten
  · exact hspace _ (PathPattern.mem_edgeVariables.2 ⟨e, he, hname⟩) (space_mem_anonymousName k)

/-- **Reversing a path changes nothing.** Take a store made by changes that add bare nodes, and an
accepted query with no space in the variables of its path. The query with the path read from its
other end is accepted too. Whatever the schedules, it has the same answer up to the limit, and every
variable has the same set. -/
theorem answer_reversed {changes : List Change} (hbare : ∀ n, .add n ∈ changes → n.IsBare)
    (hc : q.compile = .ok c) (hp : q.path = .ok p)
    (hspace : ∀ name ∈ p.nodeVariables ++ p.edgeVariables, ' ' ∉ name.toList)
    (first second : Schedule) :
    (∃ d, q.reversed.compile = .ok d)
      ∧ FindSame (Store.run {} changes) first second q q.reversed p.nodeVariables := by
  have hallows := allows_of_compile hc hp
  have hs : (Store.run {} changes).Indexed := Store.Reachable.indexed ⟨changes, rfl⟩
  have hwhole := Store.whole_run changes hbare
  have hsame : ∀ {name}, name ∈ p.reversed.nodeVariables ↔ name ∈ p.nodeVariables :=
    PathPattern.mem_nodeVariables_reversed
  have hnodes : p.Spaceless := fun name hname => hspace name (List.mem_append_left _ hname)
  have hnodes' : p.reversed.Spaceless := fun name hname => hnodes name (hsame.1 hname)
  obtain ⟨d, hd, hcolumn⟩ : ∃ d, q.reversed.compile = .ok d ∧ d.returned = c.returned := by
    refine ⟨_, compile_mapPaths hc hp (isStep_reversed hc hp fun name hname => ?_)
      (hsame.2 (returned_mem_of_compile hc hp)) fun e he => ?_, rfl⟩
    · exact hspace name (List.mem_append_right _ hname)
    · exact (hallows e he).mono fun _ => hsame.2
  have hp' : q.reversed.path = .ok p.reversed := path_mapPaths hp PathPattern.reversed
  have hbinds : ∀ name ∈ p.nodeVariables, ∀ id,
      c.Binds (Store.run {} changes) name id ↔ d.Binds (Store.run {} changes) name id := by
    intro name hname id
    rw [binds_iff_assigns hc hp hnodes hname, binds_iff_assigns hd hp' hnodes' (hsame.2 hname)]
    exact (PathPattern.assigns_reversed_iff hwhole (fun e he => (hallows e he).2) hname).symm
  exact ⟨⟨d, hd⟩,
    findSame_of_binds hs first second hc hp hd hp' rfl hcolumn (fun _ => hsame.2) hbinds⟩

/-- A function that calls another, recorded from the side of what is called, and itself: a query for
something at either end of a call of what calls it, over a node without a variable. -/
theorem answer_reversed_of_calls :
    let changes : List Change := [.add { kind := .functionDeclaration },
      .add { kind := .functionDeclaration }, .addEdge ⟨1⟩ ⟨"calls"⟩ ⟨0⟩ .incoming,
      .addEdge ⟨0⟩ ⟨"calls"⟩ ⟨0⟩ .outgoing]
    let p : PathPattern :=
      { start := { name := some "f" }
        segments := [⟨{ direction := .incoming }, {}⟩,
          ⟨{ direction := .both }, { name := some "g" }⟩] }
    let q := matching p (some (.binary (.comparison .ne) (.var "f") (.var "g"))) "g"
    (∀ n, Change.add n ∈ changes → n.IsBare) ∧ (∃ c, q.compile = .ok c) ∧ q.path = .ok p
      ∧ (∀ name ∈ p.nodeVariables ++ p.edgeVariables, ' ' ∉ name.toList)
      ∧ q.reversed.nodesOf {} (Store.run {} changes) "g" = some [⟨0⟩, ⟨1⟩] := by
  intro changes p q
  have hbare : ∀ n, Change.add n ∈ changes → n.IsBare := by
    intro n hn
    obtain rfl : n = { kind := .functionDeclaration } := by simpa [changes] using hn
    exact ⟨rfl, rfl⟩
  have hspace : ∀ name ∈ p.nodeVariables ++ p.edgeVariables, ' ' ∉ name.toList := by decide
  have hfound : q.nodesOf {} (Store.run {} changes) "g" = some [⟨0⟩, ⟨1⟩] := by decide +kernel
  have hsame := (answer_reversed (q := q) (p := p) hbare rfl rfl hspace {} {}).2
  obtain ⟨set, hset, hset'⟩ := hsame.sets "g" (by decide)
  obtain rfl : [⟨0⟩, ⟨1⟩] = set := Option.some.inj (hfound.symm.trans hset)
  exact ⟨hbare, ⟨_, rfl⟩, rfl, hspace, hset'⟩

end Query
end CodeGraph
