import CodeGraph.Proofs.Rewriting

/-!
Steps that leave a choice.

An edge without an arrow head leaves the direction open, and an edge with several groups the group.
A row takes one edge at each step, so it is a row of one of the paths in which the choice is made.

* `PathPattern.redraw`, `EdgePattern.drawn`, `EdgePattern.through`: a path with one edge changed in
  what it asks for.
* `EdgePattern.Offers`: an edge joins what one of several others joins.
* `PathPattern.fits_redraw_iff`, `PathPattern.bindsWhere_redraw_iff`: the choice is made for a whole
  row at once.
* `Query.nodesOf_alternatives`: the set of a variable is the union over the choices, and the order,
  the repetition and the case of groups do not matter.
-/

namespace CodeGraph

/-! ### Edges that leave a choice -/

namespace EdgePattern

variable {s : Store} {e : EdgePattern} {a b : NodeId}

/-- An edge of a pattern drawn in a direction. -/
def drawn (direction : PatternDirection) (e : EdgePattern) : EdgePattern := { e with direction }

/-- An edge of a pattern through some groups. -/
def through (groups : List Group) (e : EdgePattern) : EdgePattern := { e with groups }

/-- A change of what an edge asks of the edges of a store: its groups and its direction, and nothing
else. -/
structure IsRedrawing (change : EdgePattern → EdgePattern) : Prop where
  name_eq : ∀ e, (change e).name = e.name
  length_eq : ∀ e, (change e).length = e.length
  properties_eq : ∀ e, (change e).properties = e.properties

lemma isRedrawing_drawn (direction : PatternDirection) : IsRedrawing (drawn direction) :=
  ⟨fun _ => rfl, fun _ => rfl, fun _ => rfl⟩

lemma isRedrawing_through (groups : List Group) : IsRedrawing (through groups) :=
  ⟨fun _ => rfl, fun _ => rfl, fun _ => rfl⟩

lemma IsRedrawing.isStep {change : EdgePattern → EdgePattern} (h : IsRedrawing change)
    {names : List String}
    (he : e.IsStep names) : (change e).IsStep names :=
  ⟨(h.length_eq e).trans he.length_eq, h.properties_eq e ▸ he.isEmpty, h.name_eq e ▸ he.name_notMem⟩

/-- A changed edge offers some choices if it joins two nodes exactly when one of the choices does.
-/
def Offers {ι : Type} (s : Store) (change : EdgePattern → EdgePattern) (choices : List ι)
    (choose : ι → EdgePattern → EdgePattern) : Prop :=
  ∀ e a b, (change e).Joins s a b ↔ ∃ i ∈ choices, (choose i e).Joins s a b

/-- An edge without an arrow head offers both directions. -/
lemma offers_directions (s : Store) :
    Offers s (drawn .both) [PatternDirection.outgoing, .incoming] drawn := by
  intro e a b
  simp only [Joins, drawn, PatternDirection.directions, List.mem_cons, List.not_mem_nil, or_false,
    exists_eq_or_imp, exists_eq_left]
  constructor
  · rintro ⟨n, d, entry, hn, rfl | rfl, hentry⟩
    · exact .inl ⟨n, _, entry, hn, rfl, hentry⟩
    · exact .inr ⟨n, _, entry, hn, rfl, hentry⟩
  · rintro (⟨n, d, entry, hn, rfl, hentry⟩ | ⟨n, d, entry, hn, rfl, hentry⟩)
    · exact ⟨n, _, entry, hn, .inl rfl, hentry⟩
    · exact ⟨n, _, entry, hn, .inr rfl, hentry⟩

/-- An edge with groups offers each of them. -/
lemma offers_groups (s : Store) {groups : List Group} (hne : groups ≠ []) :
    Offers s (through groups) groups (fun g => through [g]) := by
  intro e a b
  simp only [Joins, through, hne, false_or, List.cons_ne_nil, List.mem_singleton, exists_eq_left]
  constructor
  · rintro ⟨n, d, entry, hn, hd, hentry, hfar, g, hg, halike⟩
    exact ⟨g, hg, n, d, entry, hn, hd, hentry, hfar, halike⟩
  · rintro ⟨g, hg, n, d, entry, hn, hd, hentry, hfar, halike⟩
    exact ⟨n, d, entry, hn, hd, hentry, hfar, g, hg, halike⟩

/-- Only the small letters of its groups tell what an edge joins. -/
lemma joins_through_congr {groups groups' : List Group}
    (h : ∀ x, x ∈ groups.map Group.folded ↔ x ∈ groups'.map Group.folded) :
    (e.through groups).Joins s a b ↔ (e.through groups').Joins s a b := by
  have hnil : groups = [] ↔ groups' = [] := by
    rw [← List.map_eq_nil_iff (f := Group.folded),
      ← List.map_eq_nil_iff (f := Group.folded) (l := groups'), List.eq_nil_iff_forall_not_mem,
      List.eq_nil_iff_forall_not_mem]
    exact forall_congr' fun x => not_congr (h x)
  have halike : ∀ (gs : List Group) (g : Group), (∃ g' ∈ gs, g.alike g')
      ↔ g.folded ∈ gs.map Group.folded := by
    intro gs g
    simp only [Group.alike, beq_iff_eq, List.mem_map]
    exact exists_congr fun g' => and_congr_right fun _ => eq_comm
  simp only [Joins, through, halike, hnil, h]

end EdgePattern

/-! ### Paths with one edge changed -/

namespace PathPattern

variable {s : Store} {p : PathPattern} {k : Nat}

/-- The path with the edge at a place changed. -/
def redraw (k : Nat) (change : EdgePattern → EdgePattern) (p : PathPattern) : PathPattern :=
  { p with segments := p.segments.modify k (fun segment =>
    { segment with edge := change segment.edge }) }

@[simp] lemma nodes_redraw (k : Nat) (change : EdgePattern → EdgePattern) (p : PathPattern) :
    (p.redraw k change).nodes = p.nodes := by
  rw [nodes, nodes]
  exact congrArg (p.start :: ·) (Store.map_modify_of_eq _ _ fun _ => rfl)

lemma edges_redraw (k : Nat) (change : EdgePattern → EdgePattern) (p : PathPattern) :
    (p.redraw k change).edges = p.edges.modify k change := by
  refine List.ext_getElem? fun i => ?_
  simp only [edges, redraw, List.getElem?_map, List.getElem?_modify]
  split <;> cases p.segments[i]? <;> rfl

@[simp] lemma chainNodes_redraw (k : Nat) (change : EdgePattern → EdgePattern) (p : PathPattern) :
    (p.redraw k change).chain.nodes = p.chain.nodes :=
  congrArg (chainNodesFrom 0) (nodes_redraw k change p)

lemma nodeVariables_redraw (k : Nat) (change : EdgePattern → EdgePattern) (p : PathPattern) :
    (p.redraw k change).nodeVariables = p.nodeVariables := by
  rw [nodeVariables, nodes_redraw, nodeVariables]

lemma inlinePredicates_redraw (k : Nat) (change : EdgePattern → EdgePattern) (p : PathPattern) :
    (p.redraw k change).inlinePredicates = p.inlinePredicates := by
  rw [inlinePredicates, nodes_redraw, inlinePredicates]

lemma lookup_chain_redraw (k : Nat) (change : EdgePattern → EdgePattern) (p : PathPattern) :
    (p.redraw k change).chain.lookup = p.chain.lookup := by
  funext r name
  rw [Chain.lookup, Chain.lookup, Chain.positionsOf, Chain.positionsOf, chainNodes_redraw]

lemma isStep_redraw {change : EdgePattern → EdgePattern} (h : EdgePattern.IsRedrawing change)
    (hsteps : ∀ e ∈ p.edges, e.IsStep (p.chain.nodes.map ChainNode.name)) :
    ∀ e ∈ (p.redraw k change).edges,
      e.IsStep ((p.redraw k change).chain.nodes.map ChainNode.name) := by
  rw [chainNodes_redraw, edges_redraw]
  intro e he
  obtain ⟨j, hj⟩ := List.mem_iff_getElem?.1 he
  rw [List.getElem?_modify] at hj
  split at hj
  · obtain ⟨e', he', rfl⟩ := Option.map_eq_some_iff.1 hj
    exact h.isStep (hsteps e' (List.mem_of_getElem? he'))
  · obtain ⟨e', he', rfl⟩ := Option.map_eq_some_iff.1 hj
    exact hsteps e' (List.mem_of_getElem? he')

/-- A row fits a path at its nodes and at its edges, except perhaps at one. -/
structure FitsBeside (s : Store) (p : PathPattern) (k : Nat) (r : Row) : Prop where
  length_eq : r.length = p.chain.nodes.length
  labels : ∀ (j : Nat) (n : ChainNode) (id : NodeId), p.chain.nodes[j]? = some n → r[j]? = some id →
    ∃ node, s.node? id = some node ∧ node.hasLabels n.labels
  joined : ∀ (j : Nat) (e : EdgePattern) (a b : NodeId), j ≠ k → p.edges[j]? = some e →
    r[j]? = some a → r[j + 1]? = some b → e.Joins s a b
  agrees : Matched.Agrees p.chain r

/-- **An edge is asked apart from all else**: a row fits a path with an edge changed if it fits the
rest of the path and the changed edge joins its nodes. -/
lemma fits_redraw {change : EdgePattern → EdgePattern} {r : Row} :
    (p.redraw k change).chain.Fits s r
      ↔ p.FitsBeside s k r ∧ ∀ e a b, p.edges[k]? = some e → r[k]? = some a → r[k + 1]? = some b →
        (change e).Joins s a b := by
  have hstep : ∀ j step, (p.redraw k change).chain.steps[j]? = some step
      ↔ ∃ e, p.edges[j]? = some e ∧ step = (if k = j then change e else e).step := by
    intro j step
    rw [steps_chain, edges_redraw, List.getElem?_map, List.getElem?_modify]
    by_cases hj : k = j <;> cases p.edges[j]? <;> simp [hj, eq_comm]
  constructor
  · intro h
    refine ⟨⟨?_, ?_, fun j e a b hj he ha hb => ?_, ?_⟩, fun e a b he ha hb => ?_⟩
    · rw [h.length_eq, chainNodes_redraw]
    · simpa using h.labels
    · have := h.joined j e.step a b ((hstep j _).2 ⟨e, he, by rw [if_neg (Ne.symm hj)]⟩) ha hb
      exact EdgePattern.mem_farEnds.1 this
    · simpa [Matched.Agrees] using h.agrees
    · have := h.joined k (change e).step a b ((hstep k _).2 ⟨e, he, by rw [if_pos rfl]⟩) ha hb
      exact EdgePattern.mem_farEnds.1 this
  · rintro ⟨h, hchange⟩
    refine ⟨?_, ?_, fun j step a b hj ha hb => ?_, ?_⟩
    · rw [h.length_eq, chainNodes_redraw]
    · simpa using h.labels
    · obtain ⟨e, he, rfl⟩ := (hstep j step).1 hj
      refine EdgePattern.mem_farEnds.2 ?_
      split
      · rename_i hk
        subst hk
        exact hchange e a b he ha hb
      · rename_i hk
        exact h.joined j e a b (Ne.symm hk) he ha hb
    · simpa [Matched.Agrees] using h.agrees

variable {ι : Type} {choices : List ι} {change : EdgePattern → EdgePattern}
  {choose : ι → EdgePattern → EdgePattern}

/-- **A choice is made for a row**: a row has one pair of nodes at a step, so the choice that joins
them is the choice for the row. -/
lemma fits_redraw_iff (hne : choices ≠ [])
    (h : EdgePattern.Offers s change choices choose) {r : Row} :
    (p.redraw k change).chain.Fits s r ↔ ∃ i ∈ choices, (p.redraw k (choose i)).chain.Fits s r := by
  simp only [fits_redraw]
  constructor
  · rintro ⟨hbeside, hjoins⟩
    by_cases hpair : ∃ e a b, p.edges[k]? = some e ∧ r[k]? = some a ∧ r[k + 1]? = some b
    · obtain ⟨e, a, b, he, ha, hb⟩ := hpair
      obtain ⟨i, hi, hchosen⟩ := (h e a b).1 (hjoins e a b he ha hb)
      refine ⟨i, hi, hbeside, fun e' a' b' he' ha' hb' => ?_⟩
      cases he.symm.trans he'
      cases ha.symm.trans ha'
      cases hb.symm.trans hb'
      exact hchosen
    · obtain ⟨i, hi⟩ := List.exists_mem_of_ne_nil _ hne
      exact ⟨i, hi, hbeside, fun e a b he ha hb => absurd ⟨e, a, b, he, ha, hb⟩ hpair⟩
  · rintro ⟨i, hi, hbeside, hjoins⟩
    exact ⟨hbeside, fun e a b he ha hb => (h e a b).2 ⟨i, hi, hjoins e a b he ha hb⟩⟩

/-- What a path binds, all else being equal, depends on the rows that fit it. -/
lemma bindsWhere_redraw {condition : Lookup → Prop} {name : String} {id : NodeId} :
    (p.redraw k change).BindsWhere s condition name id
      ↔ ∃ r, (p.redraw k change).chain.Fits s r
        ∧ (∀ e ∈ p.inlinePredicates, e.holds s (p.chain.lookup r))
        ∧ condition (p.chain.lookup r) ∧ p.chain.lookup r name = some id := by
  rw [BindsWhere, inlinePredicates_redraw, lookup_chain_redraw]

/-- What a path binds is what it binds under one of the choices. -/
lemma bindsWhere_redraw_iff (hne : choices ≠ []) (h : EdgePattern.Offers s change choices choose)
    {condition : Lookup → Prop} {name : String} {id : NodeId} :
    (p.redraw k change).BindsWhere s condition name id
      ↔ ∃ i ∈ choices, (p.redraw k (choose i)).BindsWhere s condition name id := by
  simp only [bindsWhere_redraw, fits_redraw_iff hne h]
  constructor
  · rintro ⟨r, ⟨i, hi, hfits⟩, hrest⟩
    exact ⟨i, hi, r, hfits, hrest⟩
  · rintro ⟨i, hi, r, hfits, hrest⟩
    exact ⟨r, ⟨i, hi, hfits⟩, hrest⟩

end PathPattern

/-! ### Queries with one edge changed -/

namespace Query

variable {s : Store} {q : Query} {c : ChainQuery} {p : PathPattern} {name : String} {k : Nat}
  {change : EdgePattern → EdgePattern}

/-- The query with the edge at a place of its path changed. -/
def redraw (k : Nat) (change : EdgePattern → EdgePattern) (q : Query) : Query :=
  q.mapPaths (PathPattern.redraw k change)

/-- **The set of a variable in a query with an edge changed** is there, and holds what the changed
path binds. -/
lemma exists_nodesOf_redraw (hs : s.Indexed) (schedule : Schedule) (hc : q.compile = .ok c)
    (hp : q.path = .ok p) (hname : name ∈ p.nodeVariables) (k : Nat)
    (h : EdgePattern.IsRedrawing change) :
    ∃ set, (q.redraw k change).nodesOf schedule s name = some set
      ∧ (p.redraw k change).Collects s (fun f => ∀ e ∈ q.filter, e.holds s f) name set := by
  have hvars := PathPattern.nodeVariables_redraw k change p
  have hpath := path_mapPaths hp (PathPattern.redraw k change)
  have hcompile : (q.redraw k change).compile = .ok _ :=
    compile_mapPaths hc hp (PathPattern.isStep_redraw h (isStep_of_compile hc hp))
      (hvars ▸ returned_mem_of_compile hc hp)
      fun e he => (allows_of_compile hc hp e he).mono fun x hx => hvars.symm ▸ hx
  exact exists_nodesOf_filtered hs schedule hcompile hpath (hvars ▸ hname) q.filter
    (allows_of_compile (q := q.redraw k change) hcompile hpath)

/-- The set of a variable in a query with an edge changed holds what the changed path binds. -/
lemma mem_nodesOf_redraw (hs : s.Indexed) {schedule : Schedule} (hc : q.compile = .ok c)
    (hp : q.path = .ok p) (hname : name ∈ p.nodeVariables) (h : EdgePattern.IsRedrawing change)
    {set : NodeSet} (hset : (q.redraw k change).nodesOf schedule s name = some set) (id : NodeId) :
    id ∈ set ↔ (p.redraw k change).BindsWhere s (fun f => ∀ e ∈ q.filter, e.holds s f) name id := by
  obtain ⟨found, hfound, hcollects⟩ := exists_nodesOf_redraw hs schedule hc hp hname k h
  obtain rfl : set = found := Option.some.inj (hset.symm.trans hfound)
  exact hcollects.mem id

/-- If a changed edge offers some choices, the set of a variable is the union of the sets under
them. -/
lemma nodesOf_redraw_eq (hs : s.Indexed) (schedule : Schedule) (hc : q.compile = .ok c)
    (hp : q.path = .ok p) (hname : name ∈ p.nodeVariables) {ι : Type} {choices : List ι}
    {choose : ι → EdgePattern → EdgePattern} (hne : choices ≠ [])
    (hoffers : EdgePattern.Offers s change choices choose)
    (hchange : EdgePattern.IsRedrawing change) (hchoose : ∀ i, EdgePattern.IsRedrawing (choose i))
    {sets : ι → NodeSet}
    (hsets : ∀ i, (q.redraw k (choose i)).nodesOf schedule s name = some (sets i)) :
    (q.redraw k change).nodesOf schedule s name = some (NodeSet.ofList (choices.flatMap sets)) := by
  obtain ⟨set, hset, hcollects⟩ := exists_nodesOf_redraw hs schedule hc hp hname k hchange
  have hmem := fun i id => mem_nodesOf_redraw hs hc hp hname (hchoose i) (hsets i) id
  rw [hset, hcollects.ascending.ext (NodeSet.ascending_ofList _) fun id => ?_]
  rw [hcollects.mem, PathPattern.bindsWhere_redraw_iff hne hoffers, NodeSet.mem_ofList,
    List.mem_flatMap]
  simp only [hmem]

/-- The set of a variable stays the same as long as the changed edge joins the same nodes. -/
lemma nodesOf_redraw_congr (hs : s.Indexed) (schedule : Schedule) (hc : q.compile = .ok c)
    (hp : q.path = .ok p) (hname : name ∈ p.nodeVariables) {change' : EdgePattern → EdgePattern}
    (hchange : EdgePattern.IsRedrawing change) (hchange' : EdgePattern.IsRedrawing change')
    (hjoins : ∀ e a b, (change e).Joins s a b ↔ (change' e).Joins s a b) :
    (q.redraw k change).nodesOf schedule s name = (q.redraw k change').nodesOf schedule s name := by
  obtain ⟨set, hset, hcollects⟩ := exists_nodesOf_redraw hs schedule hc hp hname k hchange
  obtain ⟨set', hset', hcollects'⟩ := exists_nodesOf_redraw hs schedule hc hp hname k hchange'
  have hoffers : EdgePattern.Offers s change [()] fun _ => change' :=
    fun e a b => by simpa using hjoins e a b
  rw [hset, hset', hcollects.ascending.ext hcollects'.ascending fun id => ?_]
  rw [hcollects.mem, hcollects'.mem,
    PathPattern.bindsWhere_redraw_iff (List.cons_ne_nil _ _) hoffers]
  simp

/-- **Steps that leave a choice are unions.** In every store that changes make of the empty one,
whatever the schedule, take an accepted query, a variable of its path and a place `k` of an edge.
Without an arrow head at the edge the variable has the nodes that it has with a head at the one or
the other end. With some groups at the edge it has the nodes that it has with one of them alone; and
any two lists of groups that have the same names in small letters leave it the same nodes, so that
their order, repetition and case do not matter. -/
theorem nodesOf_alternatives (hs : s.Reachable) (schedule : Schedule) (hc : q.compile = .ok c)
    (hp : q.path = .ok p) (hname : name ∈ p.nodeVariables) (k : Nat) :
    (∃ out back, (q.redraw k (.drawn .outgoing)).nodesOf schedule s name = some out
        ∧ (q.redraw k (.drawn .incoming)).nodesOf schedule s name = some back
        ∧ (q.redraw k (.drawn .both)).nodesOf schedule s name = some (NodeSet.ofList (out ++ back)))
      ∧ (∃ sets : Group → NodeSet,
          (∀ g, (q.redraw k (.through [g])).nodesOf schedule s name = some (sets g))
          ∧ ∀ groups, groups ≠ [] →
            (q.redraw k (.through groups)).nodesOf schedule s name
              = some (NodeSet.ofList (groups.flatMap sets)))
      ∧ ∀ groups groups' : List Group,
          (∀ x, x ∈ groups.map Group.folded ↔ x ∈ groups'.map Group.folded) →
          (q.redraw k (.through groups)).nodesOf schedule s name
            = (q.redraw k (.through groups')).nodesOf schedule s name := by
  have hdrawn := EdgePattern.isRedrawing_drawn
  have hthrough := EdgePattern.isRedrawing_through
  refine ⟨?_, ?_, fun groups groups' h => ?_⟩
  · have hset := fun d => exists_nodesOf_redraw hs.indexed schedule hc hp hname k (hdrawn d)
    choose sets hsets _ using hset
    refine ⟨sets .outgoing, sets .incoming, hsets _, hsets _, ?_⟩
    rw [nodesOf_redraw_eq hs.indexed schedule hc hp hname (List.cons_ne_nil _ _)
      (EdgePattern.offers_directions s) (hdrawn .both) hdrawn hsets]
    simp
  · have hset := fun g => exists_nodesOf_redraw hs.indexed schedule hc hp hname k (hthrough [g])
    choose sets hsets _ using hset
    exact ⟨sets, hsets, fun groups hne => nodesOf_redraw_eq hs.indexed schedule hc hp hname hne
      (EdgePattern.offers_groups s hne) (hthrough groups) (fun g => hthrough [g]) hsets⟩
  · exact nodesOf_redraw_congr hs.indexed schedule hc hp hname (hthrough groups) (hthrough groups')
      fun _ _ _ => EdgePattern.joins_through_congr h

/-- A function that calls another and is called by a third, the second call in capitals: without an
arrow head the path between is walked both ways, and the case and the repetition of its group do not
matter. -/
theorem nodesOf_alternatives_of_calls :
    let s := Store.run {} [.add (.functionDeclaration "main" "main()"),
      .add (.functionDeclaration "work" "work()"), .add (.functionDeclaration "print" "print()"),
      .addEdge ⟨0⟩ ⟨"calls"⟩ ⟨1⟩ .outgoing, .addEdge ⟨1⟩ ⟨"CALLS"⟩ ⟨2⟩ .outgoing]
    let p : PathPattern :=
      { start := { name := some "f" }
        segments := [⟨{ direction := .outgoing }, { name := some "g" }⟩] }
    let q := matching p (some (.equals (.property "f" "name") (.literal (.string "work")))) "g"
    s.Reachable ∧ (∃ c, q.compile = .ok c) ∧ q.path = .ok p ∧ "g" ∈ p.nodeVariables
      ∧ (q.redraw 0 (.drawn .outgoing)).nodesOf {} s "g" = some [⟨2⟩]
      ∧ (q.redraw 0 (.drawn .incoming)).nodesOf {} s "g" = some [⟨0⟩]
      ∧ (q.redraw 0 (.drawn .both)).nodesOf {} s "g" = some [⟨0⟩, ⟨2⟩]
      ∧ (q.redraw 0 (.through [⟨"calls"⟩])).nodesOf {} s "g"
        = (q.redraw 0 (.through [⟨"Calls"⟩, ⟨"CALLS"⟩])).nodesOf {} s "g" := by
  intro s p q
  have hout : (q.redraw 0 (.drawn .outgoing)).nodesOf {} s "g" = some [⟨2⟩] := by decide +kernel
  have hback : (q.redraw 0 (.drawn .incoming)).nodesOf {} s "g" = some [⟨0⟩] := by decide +kernel
  have hfolded : (⟨"calls"⟩ : Group).folded = "calls" ∧ (⟨"Calls"⟩ : Group).folded = "calls"
      ∧ (⟨"CALLS"⟩ : Group).folded = "calls" := by decide +kernel
  have hname : "g" ∈ p.nodeVariables := by decide
  obtain ⟨⟨out, back, hout', hback', hboth⟩, -, hgroups⟩ :=
    nodesOf_alternatives (q := q) (s := s) ⟨_, rfl⟩ {} rfl rfl hname 0
  obtain rfl : [⟨2⟩] = out := Option.some.inj (hout.symm.trans hout')
  obtain rfl : [⟨0⟩] = back := Option.some.inj (hback.symm.trans hback')
  refine ⟨⟨_, rfl⟩, ⟨_, rfl⟩, rfl, hname, hout, hback, hboth, hgroups _ _ fun x => ?_⟩
  simp [hfolded.1, hfolded.2.1, hfolded.2.2]

end Query
end CodeGraph
