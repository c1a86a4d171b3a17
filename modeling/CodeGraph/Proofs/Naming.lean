import CodeGraph.Proofs.Rewriting

/-!
Giving a node of a path another variable.

A node that shares its variable with others takes the same node of the store as they do. Under a
variable of its own it is free of them, and nothing else changes.

* `PathPattern.naming`, `PathPattern.Fresh`: a path with one node under another variable, and the
  variables that mean nothing in a path yet.
* `PathPattern.SameShape`: paths that ask the same of every single node and edge.
* `PathPattern.Shares`: a row gives a node what it gives the others of its variable.
  `agrees_naming_iff` and `bindsWhere_naming_iff` say that this is all that a fresh variable gives
  up, `shares_iff_holds` and `shares_of_unnamed` what it means.
* `Query.nodesOf_split`: a repeated variable means that nodes are equal.
* `Query.answer_naming`: a node without a variable is free of all others, unless the variable that
  is made up for it was written. `Query.nodesOf_naming_made_up`: then it is not.
-/

namespace CodeGraph

/-- Two variables are equal if they are bound to one node. -/
lemma Expr.holds_equals_var {s : Store} {f : Lookup} {x y : String} :
    (Expr.equals (.var x) (.var y)).holds s f ↔ ∃ id, f x = some id ∧ f y = some id := by
  rw [Expr.equals, Expr.holds_comparison, Expr.value, Expr.value]
  cases hx : f x with
  | none => cases f y <;> simp [Value.ofNode?, Value.compares]
  | some a =>
      cases hy : f y with
      | none => simp [Value.ofNode?, Value.compares]
      | some b => simpa [Value.ofNode?, Value.compares] using eq_comm

/-! ### Another variable for a node -/

/-- A node of a pattern under a variable. -/
def NodePattern.called (n : NodePattern) (name : String) : NodePattern :=
  { n with name := some name }

namespace PathPattern

variable {s : Store} {p p' : PathPattern} {r : Row} {k : Nat} {y : String}

/-- The path with the node at a place under a variable, whether it had one or not. -/
def naming (k : Nat) (y : String) (p : PathPattern) : PathPattern :=
  match k with
  | 0 => { p with start := p.start.called y }
  | k + 1 =>
    { p with segments := p.segments.modify k (fun segment =>
      { segment with node := segment.node.called y }) }

lemma nodes_naming (k : Nat) (y : String) (p : PathPattern) :
    (p.naming k y).nodes = p.nodes.modify k (fun n => n.called y) := by
  cases k with
  | zero => rfl
  | succ k =>
      rw [nodes, nodes, List.modify_succ_cons]
      refine congrArg (p.start :: ·) (List.ext_getElem? fun i => ?_)
      simp only [naming, List.getElem?_map, List.getElem?_modify]
      split <;> cases p.segments[i]? <;> rfl

@[simp] lemma edges_naming (k : Nat) (y : String) (p : PathPattern) :
    (p.naming k y).edges = p.edges := by
  cases k with
  | zero => rfl
  | succ k => exact Store.map_modify_of_eq _ _ fun _ => rfl

lemma getElem?_naming_of_ne {j : Nat} (h : j ≠ k) : (p.naming k y).nodes[j]? = p.nodes[j]? := by
  rw [nodes_naming, List.getElem?_modify]
  simp [Ne.symm h]

lemma getElem?_naming {n : NodePattern} (hn : p.nodes[k]? = some n) :
    (p.naming k y).nodes[k]? = some (n.called y) := by
  rw [nodes_naming, List.getElem?_modify, hn]
  simp

lemma getElem?_chain_naming_of_ne {j : Nat} (h : j ≠ k) :
    (p.naming k y).chain.nodes[j]? = p.chain.nodes[j]? := by
  rw [getElem?_chain, getElem?_chain, getElem?_naming_of_ne h]

/-- The node is found under its new variable. -/
lemma exists_getElem?_chain_naming {n : NodePattern} (hn : p.nodes[k]? = some n) :
    ∃ x, (p.naming k y).chain.nodes[k]? = some x ∧ x.name = y :=
  ⟨_, getElem?_chain_of_eq_some (getElem?_naming hn), rfl⟩

/-- A position of the path has the new variable or is as it was. -/
lemma chain_naming_cases {j : Nat} {x : ChainNode} (hx : (p.naming k y).chain.nodes[j]? = some x) :
    (j = k ∧ x.name = y) ∨ (j ≠ k ∧ p.chain.nodes[j]? = some x) := by
  by_cases hj : j = k
  · subst hj
    rw [getElem?_chain] at hx
    obtain ⟨n, hn, rfl⟩ := Option.map_eq_some_iff.1 hx
    rw [nodes_naming, List.getElem?_modify_eq] at hn
    obtain ⟨m, -, rfl⟩ := Option.map_eq_some_iff.1 hn
    exact .inl ⟨rfl, rfl⟩
  · exact .inr ⟨hj, getElem?_chain_naming_of_ne hj ▸ hx⟩

/-- A variable is fresh for a path if it is neither that of an edge nor that of a position, written
or made up. -/
structure Fresh (p : PathPattern) (y : String) : Prop where
  edge : y ∉ p.edgeVariables
  node : y ∉ p.chain.nodes.map ChainNode.name

lemma Fresh.ne (h : p.Fresh y) {j : Nat} {x : ChainNode} (hx : p.chain.nodes[j]? = some x) :
    x.name ≠ y :=
  fun heq => h.node (List.mem_map.2 ⟨x, List.mem_of_getElem? hx, heq⟩)

/-- The edges of a path can still be its steps when a node takes a fresh variable. -/
lemma Fresh.isStep (h : p.Fresh y)
    (hsteps : ∀ e ∈ p.edges, e.IsStep (p.chain.nodes.map ChainNode.name)) :
    ∀ e ∈ (p.naming k y).edges, e.IsStep ((p.naming k y).chain.nodes.map ChainNode.name) := by
  intro e he
  rw [edges_naming] at he
  obtain ⟨hlength, hempty, hnew⟩ := hsteps e he
  refine ⟨hlength, hempty, fun name hname hmem => ?_⟩
  obtain ⟨x, hx, rfl⟩ := List.mem_map.1 hmem
  obtain ⟨j, hj⟩ := List.mem_iff_getElem?.1 hx
  rcases chain_naming_cases hj with ⟨-, hy⟩ | ⟨-, hj⟩
  · exact h.edge (mem_edgeVariables.2 ⟨e, he, hy ▸ hname⟩)
  · exact hnew _ hname (List.mem_map_of_mem (List.mem_of_getElem? hj))

/-- A variable is written at a place other than a given one. -/
def StandsBeside (p : PathPattern) (k : Nat) (name : String) : Prop :=
  ∃ j n, j ≠ k ∧ p.nodes[j]? = some n ∧ n.name = some name

lemma StandsBeside.mem_nodeVariables {name : String} (h : p.StandsBeside k name) :
    name ∈ (p.naming k y).nodeVariables := by
  obtain ⟨j, n, hj, hn, hname⟩ := h
  exact PathPattern.mem_nodeVariables.2 ⟨j, n, (getElem?_naming_of_ne hj).trans hn, hname⟩

/-- All variables of a path stand at other places than a given one if the variable that is written
there does. -/
lemma standsBeside_of_written {n : NodePattern} (hn : p.nodes[k]? = some n)
    (h : ∀ name, n.name = some name → p.StandsBeside k name) :
    ∀ name ∈ p.nodeVariables, p.StandsBeside k name := by
  intro name hname
  obtain ⟨j, m, hm, hwritten⟩ := mem_nodeVariables.1 hname
  by_cases hj : j = k
  · subst hj
    cases hn.symm.trans hm
    exact h name hwritten
  · exact ⟨j, m, hj, hm, hwritten⟩

lemma mem_nodeVariables_naming {n : NodePattern} (hn : p.nodes[k]? = some n) :
    y ∈ (p.naming k y).nodeVariables :=
  mem_nodeVariables.2 ⟨k, _, getElem?_naming hn, rfl⟩

/-! ### Paths of one shape -/

/-- Two paths have one shape if they ask the same of every single node and edge, whatever their
variables. -/
structure SameShape (p p' : PathPattern) : Prop where
  nodes : p.nodes.map (fun n => (n.labels, n.properties))
    = p'.nodes.map (fun n => (n.labels, n.properties))
  edges : p.edges = p'.edges

lemma SameShape.symm (h : p.SameShape p') : p'.SameShape p := ⟨h.nodes.symm, h.edges.symm⟩

lemma sameShape_naming (k : Nat) (y : String) (p : PathPattern) : p.SameShape (p.naming k y) := by
  refine ⟨?_, (edges_naming k y p).symm⟩
  rw [nodes_naming, Store.map_modify_of_eq p.nodes k (f := fun n => n.called y) fun _ => rfl]

lemma SameShape.exists_node (h : p.SameShape p') {j : Nat} {n' : NodePattern}
    (hn' : p'.nodes[j]? = some n') :
    ∃ n, p.nodes[j]? = some n ∧ n.labels = n'.labels ∧ n.properties = n'.properties := by
  have hget := congrArg (fun nodes => nodes[j]?) h.nodes
  simp only [List.getElem?_map, hn', Option.map_some, Option.map_eq_some_iff] at hget
  obtain ⟨n, hn, heq⟩ := hget
  exact ⟨n, hn, (Prod.mk.inj heq).1, (Prod.mk.inj heq).2⟩

/-- **A row of a path is a row of every path of its shape**, as long as it gives no variable of that
path two nodes. -/
lemma SameShape.row (h : p.SameShape p') (hagrees : Matched.Agrees p'.chain r)
    (hfits : p.chain.Fits s r) (hinline : ∀ e ∈ p.inlinePredicates, e.holds s (p.chain.lookup r)) :
    p'.chain.Fits s r ∧ ∀ e ∈ p'.inlinePredicates, e.holds s (p'.chain.lookup r) := by
  have hlength : p.nodes.length = p'.nodes.length := by simpa using congrArg List.length h.nodes
  have hlen : r.length = p.nodes.length := hfits.length_eq.trans p.length_nodes_chain
  refine ⟨⟨?_, fun j x id hx hid => ?_, ?_, hagrees⟩, ?_⟩
  · rw [hlen, hlength, length_nodes_chain]
  · rw [getElem?_chain] at hx
    obtain ⟨n', hn', rfl⟩ := Option.map_eq_some_iff.1 hx
    obtain ⟨n, hn, hlabels, -⟩ := h.exists_node hn'
    obtain ⟨node, hnode, hcarries⟩ := hfits.labels j _ id (getElem?_chain_of_eq_some hn) hid
    exact ⟨node, hnode, (show node.hasLabels n'.labels by rw [← hlabels]; exact hcarries)⟩
  · rw [steps_chain, ← h.edges, ← steps_chain]
    exact hfits.joined
  · refine (holds_inlinePredicates_iff hagrees (hlen.trans hlength)).2 fun j n' id hn' hid => ?_
    obtain ⟨n, hn, -, hproperties⟩ := h.exists_node hn'
    rw [← hproperties]
    exact (holds_inlinePredicates_iff hfits.agrees hlen).1 hinline j n id hn hid

/-! ### What a shared variable demands -/

/-- A row gives the node at a place what it gives all others of its variable. -/
def Shares (p : PathPattern) (k : Nat) (r : Row) : Prop :=
  ∀ (j : Nat) (x x' : ChainNode), j ≠ k → p.chain.nodes[j]? = some x → p.chain.nodes[k]? = some x' →
    x.name = x'.name → r[j]? = r[k]?

/-- **A fresh variable gives up what the old one demanded** of the node at its place, and no more.
-/
lemma agrees_naming_iff (hfresh : p.Fresh y) :
    Matched.Agrees p.chain r ↔ Matched.Agrees (p.naming k y).chain r ∧ p.Shares k r := by
  refine ⟨fun h => ⟨fun i j x x' hx hx' heq => ?_,
    fun j x x' _ hx hx' heq => h j k x x' hx hx' heq⟩,
    fun ⟨h, hshares⟩ i j x x' hx hx' heq => ?_⟩
  · rcases chain_naming_cases hx with ⟨hi, hy⟩ | ⟨-, hold⟩ <;>
      rcases chain_naming_cases hx' with ⟨hj, hy'⟩ | ⟨-, hold'⟩
    · rw [hi, hj]
    · exact absurd (heq.symm.trans hy) (hfresh.ne hold')
    · exact absurd (heq.trans hy') (hfresh.ne hold)
    · exact h i j x x' hold hold' heq
  · by_cases hi : i = k <;> by_cases hj : j = k
    · rw [hi, hj]
    · subst hi
      exact (hshares j x' x hj hx' hx heq.symm).symm
    · subst hj
      exact hshares i x x' hi hx hx' heq
    · exact h i j x x' ((getElem?_chain_naming_of_ne hi).trans hx)
        ((getElem?_chain_naming_of_ne hj).trans hx') heq

/-- A variable that is written at another place is looked up there, whatever the variable of the
node. -/
lemma lookup_naming (h : Matched.Agrees p.chain r) (h' : Matched.Agrees (p.naming k y).chain r)
    {name : String}
    (hbeside : p.StandsBeside k name) :
    (p.naming k y).chain.lookup r name = p.chain.lookup r name := by
  obtain ⟨j, n, hj, hn, hname⟩ := hbeside
  have hx := getElem?_chain_of_eq_some hn
  have hx' := (getElem?_chain_naming_of_ne (y := y) hj).trans hx
  rw [← n.name_toChainNode hname j, Chain.lookup_eq h hx, Chain.lookup_eq h' hx']

/-- **What a path binds, told of the path with a fresh variable at a node**: the rows are those that
give the node what they give the others of its old variable. -/
lemma bindsWhere_naming_iff (hfresh : p.Fresh y) {filter : Option Expr}
    (hvars : ∀ e ∈ filter, ∀ x ∈ e.vars, p.StandsBeside k x) {name : String}
    (hname : p.StandsBeside k name) {id : NodeId} :
    p.BindsWhere s (fun f => ∀ e ∈ filter, e.holds s f) name id
      ↔ ∃ r, (p.naming k y).chain.Fits s r
        ∧ (∀ e ∈ (p.naming k y).inlinePredicates, e.holds s ((p.naming k y).chain.lookup r))
        ∧ p.Shares k r ∧ (∀ e ∈ filter, e.holds s ((p.naming k y).chain.lookup r))
        ∧ (p.naming k y).chain.lookup r name = some id := by
  have hshape := sameShape_naming k y p
  refine exists_congr fun r => ⟨fun ⟨hfits, hinline, hfilter, hid⟩ => ?_,
    fun ⟨hfits, hinline, hshares, hfilter, hid⟩ => ?_⟩
  · obtain ⟨hagrees, hshares⟩ := (agrees_naming_iff hfresh).1 hfits.agrees
    obtain ⟨hfits', hinline'⟩ := hshape.row hagrees hfits hinline
    refine ⟨hfits', hinline', hshares, fun e he => ?_,
      (lookup_naming hfits.agrees hagrees hname).trans hid⟩
    rw [Expr.holds_congr fun x hx => lookup_naming hfits.agrees hagrees (hvars e he x hx)]
    exact hfilter e he
  · have hagrees := (agrees_naming_iff hfresh).2 ⟨hfits.agrees, hshares⟩
    obtain ⟨hfits', hinline'⟩ := hshape.symm.row hagrees hfits hinline
    refine ⟨hfits', hinline', fun e he => ?_,
      (lookup_naming hagrees hfits.agrees hname).symm.trans hid⟩
    rw [← Expr.holds_congr fun x hx => lookup_naming hagrees hfits.agrees (hvars e he x hx)]
    exact hfilter e he

/-- Where a variable stands at another place too, and a fresh one takes a node that had it, written
or made up, a row gives both nodes the same exactly if the two variables are equal. -/
lemma shares_iff_holds {i : Nat} {m n : NodePattern} {x : String} (hm : p.nodes[i]? = some m)
    (hmx : m.name = some x) (hn : p.nodes[k]? = some n) (hnx : n.variableAt k = x) (hik : i ≠ k)
    (hfits : (p.naming k y).chain.Fits s r) :
    p.Shares k r ↔ (Expr.equals (.var x) (.var y)).holds s ((p.naming k y).chain.lookup r) := by
  have hold := getElem?_chain_of_eq_some hm
  have hold' := getElem?_chain_of_eq_some hn
  have hold_eq : (m.toChainNode i).name = x := m.name_toChainNode hmx i
  have hbeside := (getElem?_chain_naming_of_ne (y := y) hik).trans hold
  obtain ⟨named, hnamed, hname⟩ := exists_getElem?_chain_naming (y := y) hn
  have hlookup : (p.naming k y).chain.lookup r x = r[i]? := by
    rw [← hold_eq, Chain.lookup_eq hfits.agrees hbeside]
  have hlookup' : (p.naming k y).chain.lookup r y = r[k]? := by
    have hslot := Chain.lookup_eq hfits.agrees hnamed
    rwa [hname] at hslot
  have hk : k < r.length := hfits.length_eq ▸ (List.getElem?_eq_some_iff.1 hnamed).1
  have hid : r[k]? = some r[k] := List.getElem?_eq_getElem hk
  rw [Expr.holds_equals_var, hlookup, hlookup', hid]
  refine ⟨fun h => ⟨r[k], (h i _ _ hik hold hold' (hold_eq.trans hnx.symm)).trans hid, rfl⟩,
    fun ⟨id, hi, hid'⟩ j z z' hj hz hz' heq => ?_⟩
  -- every other place of the variable has the node of the place `i`
  cases hold'.symm.trans hz'
  have hsame := hfits.agrees j i z _ ((getElem?_chain_naming_of_ne hj).trans hz) hbeside
    (heq.trans (hnx.trans hold_eq.symm))
  rw [hsame, hi, hid, hid']

/-- The variable that is made up for a node is that of no other, unless it was written. -/
lemma shares_of_unnamed {n : NodePattern} (hn : p.nodes[k]? = some n) (hunnamed : n.name = none)
    (hunwritten : anonymousName k ∉ p.nodeVariables) (r : Row) : p.Shares k r := by
  intro j x x' hj hx hx' heq
  rw [getElem?_chain] at hx hx'
  obtain ⟨m, hm, rfl⟩ := Option.map_eq_some_iff.1 hx
  obtain ⟨n', hn', rfl⟩ := Option.map_eq_some_iff.1 hx'
  cases hn.symm.trans hn'
  have hmade : m.variableAt j = anonymousName k := by
    rwa [NodePattern.toChainNode, NodePattern.toChainNode,
      NodePattern.variableAt_unnamed hunnamed] at heq
  cases hname : m.name with
  | none =>
      exact absurd
        (anonymousName_injective ((NodePattern.variableAt_unnamed hname j).symm.trans hmade)) hj
  | some name =>
      obtain rfl : name = anonymousName k := by rw [← hmade, NodePattern.variableAt, hname]; rfl
      exact absurd (mem_nodeVariables.2 ⟨j, m, hm, hname⟩) hunwritten

end PathPattern

/-! ### Queries over a path with another variable -/

namespace Query

variable {s : Store} {q : Query} {c : ChainQuery} {p : PathPattern} {n : NodePattern} {k : Nat}
  {y : String}

/-- The query with the node at a place under a variable. -/
def naming (k : Nat) (y : String) (q : Query) : Query := q.mapPaths (PathPattern.naming k y)

/-- The query with a node that shares its variable under a fresh one, and with the demand that the
two are equal. -/
def split (q : Query) (k : Nat) (x y : String) : Query :=
  (q.naming k y).filtered (conjunction (q.filter.toList ++ [.equals (.var x) (.var y)]))

/-- **A fresh variable and a filter for what it gives up.** If all variables of the path still stand
somewhere, the query with a fresh variable at a node is accepted. It binds the variables as before
when its filter is the old one together with what the old variable demanded. -/
lemma exists_compile_naming (hc : q.compile = .ok c) (hp : q.path = .ok p) (hfresh : p.Fresh y)
    (hbeside : ∀ name ∈ p.nodeVariables, p.StandsBeside k name) {filter : Option Expr}
    (hallows : ∀ e ∈ filter, (p.naming k y).Allows e)
    (hmeans : ∀ r, (p.naming k y).chain.Fits s r →
      ((∀ e ∈ filter, e.holds s ((p.naming k y).chain.lookup r))
        ↔ p.Shares k r ∧ ∀ e ∈ q.filter, e.holds s ((p.naming k y).chain.lookup r))) :
    ∃ d, ((q.naming k y).filtered filter).compile = .ok d ∧ d.returned = c.returned
      ∧ ∀ name ∈ p.nodeVariables, ∀ id, c.Binds s name id ↔ d.Binds s name id := by
  have hd := compile_mapPaths hc hp (hfresh.isStep (isStep_of_compile hc hp))
    (hbeside _ (returned_mem_of_compile hc hp)).mem_nodeVariables hallows
  refine ⟨_, hd, rfl, fun name hname id => ?_⟩
  rw [binds_iff_bindsWhere hc hp,
    PathPattern.bindsWhere_naming_iff hfresh
      (fun e he x hx => hbeside x ((allows_of_compile hc hp e he).2 x hx)) (hbeside name hname),
    binds_filtered hd (path_mapPaths hp _)]
  refine exists_congr fun r => and_congr_right fun hfits => and_congr_right fun _ => ?_
  rw [← and_assoc]
  exact and_congr_left' (hmeans r hfits).symm

/-- The query that is split at a node with a repeated variable is accepted, binds the variables as
before, and binds the fresh variable as the repeated one. -/
lemma exists_compile_split (hc : q.compile = .ok c) (hp : q.path = .ok p) {i : Nat}
    {m : NodePattern} {x : String} (hm : p.nodes[i]? = some m) (hmx : m.name = some x)
    (hn : p.nodes[k]? = some n) (hnx : n.variableAt k = x) (hik : i ≠ k) (hfresh : p.Fresh y)
    (hbeside : ∀ name ∈ p.nodeVariables, p.StandsBeside k name) :
    ∃ d, (q.split k x y).compile = .ok d ∧ d.returned = c.returned
      ∧ (∀ name ∈ p.nodeVariables, ∀ id, c.Binds s name id ↔ d.Binds s name id)
      ∧ ∀ id, d.Binds s x id ↔ d.Binds s y id := by
  have hx : x ∈ (p.naming k y).nodeVariables :=
    (hbeside x (PathPattern.mem_nodeVariables.2 ⟨i, m, hm, hmx⟩)).mem_nodeVariables
  have hholds : ∀ f : Lookup,
      (∀ e ∈ conjunction (q.filter.toList ++ [.equals (.var x) (.var y)]), e.holds s f)
        ↔ (∀ e ∈ q.filter, e.holds s f) ∧ (Expr.equals (.var x) (.var y)).holds s f := by
    intro f
    rw [holds_conjunction, List.forall_mem_append]
    simp
  have hallows : ∀ e ∈ conjunction (q.filter.toList ++ [.equals (.var x) (.var y)]),
      (p.naming k y).Allows e := by
    refine PathPattern.allows_conjunction (List.forall_mem_append.2 ⟨fun e he => ?_,
      fun e he => ?_⟩)
    · exact (allows_of_compile hc hp e (by simpa using he)).mono
        fun z hz => (hbeside z hz).mem_nodeVariables
    · obtain rfl := List.mem_singleton.1 he
      exact (PathPattern.allows_var hx).binary
        (PathPattern.allows_var (PathPattern.mem_nodeVariables_naming hn)) _
  obtain ⟨d, hd, hreturned, hbinds⟩ := exists_compile_naming (s := s) hc hp hfresh hbeside hallows
    fun r hfits => by rw [hholds, PathPattern.shares_iff_holds hm hmx hn hnx hik hfits, and_comm]
  refine ⟨d, hd, hreturned, hbinds, fun id => ?_⟩
  have hp' : (q.naming k y).path = .ok (p.naming k y) := path_mapPaths hp _
  rw [binds_filtered hd hp', binds_filtered hd hp']
  refine exists_congr fun r => and_congr_right fun _ => and_congr_right fun _ =>
    and_congr_right fun hfilter => ?_
  obtain ⟨other, hxr, hyr⟩ := Expr.holds_equals_var.1 ((hholds _).1 hfilter).2
  rw [hxr, hyr]

/-! ### A repeated variable -/

/-- **A repeated variable means that nodes are equal.** In every store that changes make of the
empty one, whatever the schedules, take an accepted query in which a variable stands at two places
of the path, and a fresh variable. The query in which the fresh variable takes one of the places and
has to equal the other is accepted and finds the same; the fresh variable has the set of the one
that it is equal to. -/
theorem nodesOf_split (hs : s.Reachable) (hc : q.compile = .ok c) (hp : q.path = .ok p) {i : Nat}
    {m : NodePattern} {x : String} (hm : p.nodes[i]? = some m) (hmx : m.name = some x)
    (hn : p.nodes[k]? = some n) (hnx : n.name = some x) (hik : i ≠ k) (hfresh : p.Fresh y)
    (first second : Schedule) :
    (∃ d, (q.split k x y).compile = .ok d)
      ∧ FindSame s first second q (q.split k x y) p.nodeVariables
      ∧ ∃ set, q.nodesOf first s x = some set ∧ (q.split k x y).nodesOf second s y = some set := by
  have hbeside : ∀ name ∈ p.nodeVariables, p.StandsBeside k name := by
    refine PathPattern.standsBeside_of_written hn fun name hname => ⟨i, m, hik, hm, ?_⟩
    rw [hmx, ← hnx, hname]
  have hx : x ∈ p.nodeVariables := PathPattern.mem_nodeVariables.2 ⟨i, m, hm, hmx⟩
  obtain ⟨d, hd, hreturned, hbinds, hequal⟩ := exists_compile_split (s := s) hc hp hm hmx hn
    (n.name_toChainNode hnx k) hik hfresh hbeside
  have hp' : (q.split k x y).path = .ok (p.naming k y) := path_mapPaths hp (PathPattern.naming k y)
  refine ⟨⟨d, hd⟩, findSame_of_binds hs.indexed first second hc hp hd hp' rfl hreturned
    (fun name hname => (hbeside name hname).mem_nodeVariables) hbinds, ?_⟩
  exact exists_nodesOf_eq hs.indexed first second hc hp hd hp' hx
    (PathPattern.mem_nodeVariables_naming hn)
    fun id => (hbinds x hx id).trans (hequal id)

/-- Two functions that call each other, one of which calls a third: a query for a function that
calls what calls it, with a filter, and the same query with a variable of its own for the caller at
the end. -/
theorem nodesOf_split_of_calls :
    let s := Store.run {} [.add (.functionDeclaration "even" "even()"),
      .add (.functionDeclaration "odd" "odd()"), .add (.functionDeclaration "print" "print()"),
      .addEdge ⟨0⟩ ⟨"calls"⟩ ⟨1⟩ .outgoing, .addEdge ⟨1⟩ ⟨"calls"⟩ ⟨0⟩ .outgoing,
      .addEdge ⟨1⟩ ⟨"calls"⟩ ⟨2⟩ .outgoing]
    let p : PathPattern :=
      { start := { name := some "f" }
        segments := [⟨{ direction := .outgoing }, { name := some "g" }⟩,
          ⟨{ direction := .outgoing }, { name := some "f" }⟩] }
    let filter : Expr := .unary .not (.equals (.property "g" "name") (.literal (.string "odd")))
    let q := matching p (some filter) "f"
    (∃ c, q.compile = .ok c) ∧ q.path = .ok p ∧ p.Fresh "h"
      ∧ (q.split 2 "f" "h").nodesOf {} s "f" = some [⟨1⟩]
      ∧ (q.split 2 "f" "h").nodesOf {} s "h" = some [⟨1⟩] := by
  intro s p filter q
  have hfresh : p.Fresh "h" := ⟨by decide, by decide⟩
  have hfound : q.nodesOf {} s "f" = some [⟨1⟩] := by decide +kernel
  obtain ⟨-, hsame, set, hset, hset'⟩ :=
    nodesOf_split (q := q) (p := p) (s := s) (i := 0) (k := 2) ⟨_, rfl⟩ rfl rfl rfl rfl rfl rfl
      (by decide) hfresh {} {}
  obtain rfl : [⟨1⟩] = set := Option.some.inj (hfound.symm.trans hset)
  obtain ⟨set, hset, hsplit⟩ := hsame.sets "f" (by decide)
  obtain rfl : [⟨1⟩] = set := Option.some.inj (hfound.symm.trans hset)
  exact ⟨⟨_, rfl⟩, rfl, hfresh, hsplit, hset'⟩

/-! ### A node without a variable -/

/-- **What a node without a variable is free of.** In every store that changes make of the empty
one, whatever the schedules, take an accepted query, a node of its path without a variable, and a
fresh variable. The query with the node under the fresh variable is accepted. It finds the same,
unless the variable that is made up for the node was written at another one. If it was, the node is
not free: the query finds what the one with the fresh variable finds under the demand that this
equals the written variable. -/
theorem answer_naming (hs : s.Reachable) (hc : q.compile = .ok c) (hp : q.path = .ok p)
    (hn : p.nodes[k]? = some n) (hunnamed : n.name = none) (hfresh : p.Fresh y)
    (first second : Schedule) :
    (∃ d, (q.naming k y).compile = .ok d)
      ∧ (anonymousName k ∉ p.nodeVariables →
        FindSame s first second q (q.naming k y) p.nodeVariables)
      ∧ (anonymousName k ∈ p.nodeVariables →
          FindSame s first second q (q.split k (anonymousName k) y) p.nodeVariables) := by
  have hbeside : ∀ name ∈ p.nodeVariables, p.StandsBeside k name :=
    PathPattern.standsBeside_of_written hn fun name hname => by simp [hunnamed] at hname
  have hvars : ∀ name ∈ p.nodeVariables, name ∈ (p.naming k y).nodeVariables :=
    fun name hname => (hbeside name hname).mem_nodeVariables
  have hp' : (q.naming k y).path = .ok (p.naming k y) := path_mapPaths hp (PathPattern.naming k y)
  have hallows : ∀ e ∈ q.filter, (p.naming k y).Allows e :=
    fun e he => (allows_of_compile hc hp e he).mono hvars
  refine ⟨⟨_, compile_mapPaths hc hp (hfresh.isStep (isStep_of_compile hc hp))
    (hvars _ (returned_mem_of_compile hc hp)) hallows⟩, fun hunwritten => ?_, fun hwritten => ?_⟩
  · obtain ⟨d, hd, hreturned, hbinds⟩ := exists_compile_naming (s := s) hc hp hfresh hbeside hallows
      fun r _ => (and_iff_right (PathPattern.shares_of_unnamed hn hunnamed hunwritten r)).symm
    exact findSame_of_binds hs.indexed first second hc hp hd hp' rfl hreturned hvars hbinds
  · obtain ⟨i, m, hm, hmx⟩ := PathPattern.mem_nodeVariables.1 hwritten
    have hik : i ≠ k := by
      rintro rfl
      cases hn.symm.trans hm
      simp [hunnamed] at hmx
    obtain ⟨d, hd, hreturned, hbinds, -⟩ := exists_compile_split (s := s) hc hp hm hmx hn
      (NodePattern.variableAt_unnamed hunnamed k) hik hfresh hbeside
    exact findSame_of_binds hs.indexed first second hc hp hd hp' rfl hreturned hvars hbinds

/-- A function that calls another, and a query for callers of something: what is called may have a
variable. -/
theorem answer_naming_of_call :
    let s := Store.run {} [.add (.functionDeclaration "main" "main()"),
      .add (.functionDeclaration "print" "print()"), .addEdge ⟨0⟩ ⟨"calls"⟩ ⟨1⟩ .outgoing]
    let p : PathPattern :=
      { start := { name := some "f" }, segments := [⟨{ direction := .outgoing }, {}⟩] }
    let q := matching p none "f"
    (∃ c, q.compile = .ok c) ∧ q.path = .ok p ∧ p.Fresh "g" ∧ anonymousName 1 ∉ p.nodeVariables
      ∧ (q.naming 1 "g").nodesOf {} s "f" = some [⟨0⟩] := by
  intro s p q
  have hfresh : p.Fresh "g" := ⟨by decide, by decide +kernel⟩
  have hunwritten : anonymousName 1 ∉ p.nodeVariables := by decide +kernel
  have hfound : q.nodesOf {} s "f" = some [⟨0⟩] := by decide +kernel
  obtain ⟨-, hfree, -⟩ := answer_naming (q := q) (p := p) (s := s) (k := 1)
    ⟨_, rfl⟩ rfl rfl rfl rfl hfresh {} {}
  have hsame := hfree hunwritten
  obtain ⟨set, hset, hset'⟩ := hsame.sets "f" (by decide)
  obtain rfl : [⟨0⟩] = set := Option.some.inj (hfound.symm.trans hset)
  exact ⟨⟨_, rfl⟩, rfl, hfresh, hunwritten, hset'⟩

/-- The same query with the variable that is made up for what is called, written at the caller: it
finds callers of themselves only, of which there is none. With a variable for what is called it
finds the caller. -/
theorem nodesOf_naming_made_up :
    let s := Store.run {} [.add (.functionDeclaration "main" "main()"),
      .add (.functionDeclaration "print" "print()"), .addEdge ⟨0⟩ ⟨"calls"⟩ ⟨1⟩ .outgoing]
    let p : PathPattern :=
      { start := { name := some "anon 1" }, segments := [⟨{ direction := .outgoing }, {}⟩] }
    let q := matching p none "anon 1"
    (∃ c, q.compile = .ok c) ∧ q.path = .ok p ∧ p.Fresh "g"
      ∧ (∃ d, (q.naming 1 "g").compile = .ok d)
      ∧ q.nodesOf {} s "anon 1" = some [] ∧ (q.naming 1 "g").nodesOf {} s "anon 1"
        = some [⟨0⟩] := by
  intro s p q
  exact ⟨⟨_, rfl⟩, rfl, ⟨by decide, by decide +kernel⟩,
    ⟨_, rfl⟩, by decide +kernel, by decide +kernel⟩

end Query
end CodeGraph
