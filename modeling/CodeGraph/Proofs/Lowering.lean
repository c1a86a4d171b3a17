import CodeGraph.Lowering
import CodeGraph.Proofs.Evaluation

/-!
What a query has to be for a chain query to come of it, and which one comes of it.

* `Query.path_eq_ok`, `Query.returnedItem_eq_ok`, `ReturnItem.returnedName_eq_ok`,
  `PathPattern.checkFilter_eq_ok`: when each part of a query is accepted.
* `EdgePattern.IsStep`, `PathPattern.toChain_eq_ok`: when a path makes a chain, which has its nodes,
  each under its variable or a name of its own, and its edges.
* `Query.compile_eq_ok_iff`, `Query.compile_eq_ok`: when a query is accepted, and its chain query,
  part by part. `Query.compile_limited`, `Query.compile_filtered`: another limit or another filter.
* `ChainQuery.WellFormed`, `Query.wellFormed_of_compile`: a step between any two positions, and no
  variable in the predicate that stands nowhere in the chain.
* `holds_conjunction`: a conjunction holds if all of its parts hold.
-/

namespace CodeGraph

/-! ### Computations that may be refused -/

section Refusals

variable {α β ε : Type}

/-- Two steps succeed exactly if both do. -/
lemma bind_eq_ok {x : Except ε α} {f : α → Except ε β} {b : β} :
    x >>= f = .ok b ↔ ∃ a, x = .ok a ∧ f a = .ok b := by
  cases x <;> simp [bind, Except.bind]

/-- If every success of a function is told by another, a walk that succeeds is a map of the other,
and it does if the function succeeds everywhere. -/
lemma mapM_eq_ok {f : α → Except ε β} {g : α → β} (h : ∀ x y, f x = .ok y → y = g x) {xs : List α}
    {ys : List β} : xs.mapM f = .ok ys ↔ ys = xs.map g ∧ ∀ x ∈ xs, f x = .ok (g x) := by
  induction xs generalizing ys with
  | nil => simp [pure, Except.pure, eq_comm]
  | cons x rest ih =>
      rw [List.mapM_cons, bind_eq_ok, List.forall_mem_cons]
      constructor
      · rintro ⟨y, hy, htail⟩
        obtain ⟨tail, hrest, heq⟩ := bind_eq_ok.1 htail
        obtain ⟨rfl, hall⟩ := ih.1 hrest
        obtain rfl := h x y hy
        cases heq
        exact ⟨rfl, hy, hall⟩
      · rintro ⟨rfl, hx, hall⟩
        exact ⟨g x, hx, bind_eq_ok.2 ⟨rest.map g, ih.2 ⟨rfl, hall⟩, rfl⟩⟩

/-- A check of all members succeeds exactly if each member passes. -/
lemma forM_eq_ok {f : α → Except ε Unit} {xs : List α} :
    xs.forM f = .ok () ↔ ∀ x ∈ xs, f x = .ok () := by
  induction xs with
  | nil => simp [List.forM, pure, Except.pure]
  | cons x rest ih =>
      have hcons : (x :: rest).forM f = (f x >>= fun _ => rest.forM f) := rfl
      rw [hcons, bind_eq_ok, ih, List.forall_mem_cons]
      exact ⟨fun ⟨_, hx, hrest⟩ => ⟨hx, hrest⟩, fun ⟨hx, hrest⟩ => ⟨(), hx, hrest⟩⟩

end Refusals

/-! ### The parts of a query -/

namespace Query

/-- A query has a path exactly if it matches once, not optionally, and one path. -/
lemma path_eq_ok {q : Query} {p : PathPattern} :
    q.path = .ok p ↔ ∃ clause, q.matched = [clause] ∧ clause.optional = false
      ∧ clause.paths = [p] := by
  rw [path]
  constructor
  · intro h
    split at h
    · cases h
    · rename_i clause hmatched
      split at h
      · cases h
      · rename_i hoptional
        split at h
        · rename_i hpaths
          cases h
          exact ⟨clause, hmatched, by simpa using hoptional, hpaths⟩
        · cases h
        · cases h
    · cases h
  · rintro ⟨clause, hmatched, hoptional, hpaths⟩
    simp [hmatched, hoptional, hpaths]

/-- A query has an item exactly if it returns one. -/
lemma returnedItem_eq_ok {q : Query} {item : ReturnItem} :
    q.returnedItem = .ok item ↔ ∃ clause, q.returned = some clause ∧ clause.items = [item] := by
  rw [returnedItem]
  constructor
  · intro h
    split at h
    · cases h
    · rename_i clause hreturned
      split at h
      · rename_i hitems
        cases h
        exact ⟨clause, hreturned, hitems⟩
      · cases h
      · cases h
  · rintro ⟨clause, hreturned, hitems⟩
    simp [hreturned, hitems]

end Query

/-- A variable passes exactly if a node of the path declares it. -/
lemma PathPattern.checkVariable_eq_ok {p : PathPattern} {place : Place} {name : String} :
    p.checkVariable place name = .ok () ↔ name ∈ p.nodeVariables := by
  by_cases h : name ∈ p.nodeVariables
  · simp [checkVariable, h]
  · by_cases he : name ∈ p.edgeVariables <;> simp [checkVariable, h, he]

/-- A filter passes exactly if it calls nothing and its variables are declared. -/
lemma PathPattern.checkFilter_eq_ok {p : PathPattern} {filter : Expr} :
    p.checkFilter filter = .ok () ↔ filter.function? = none
      ∧ ∀ x ∈ filter.vars, x ∈ p.nodeVariables := by
  rw [checkFilter]
  cases filter.function? with
  | some function => simp
  | none => simp only [forM_eq_ok, checkVariable_eq_ok, true_and]

/-- An item returns a name exactly if it is a declared variable. -/
lemma ReturnItem.returnedName_eq_ok {item : ReturnItem} {p : PathPattern} {name : String} :
    item.returnedName p = .ok name ↔ item.value = .var name ∧ name ∈ p.nodeVariables := by
  cases h : item.value with
  | var x =>
      simp only [ReturnItem.returnedName, h, bind_eq_ok, Expr.var.injEq]
      constructor
      · rintro ⟨u, hcheck, heq⟩
        cases heq
        exact ⟨rfl, PathPattern.checkVariable_eq_ok.1 hcheck⟩
      · rintro ⟨rfl, hname⟩
        exact ⟨(), PathPattern.checkVariable_eq_ok.2 hname, rfl⟩
  | property x key => simp [ReturnItem.returnedName, h]
  | literal value => simp [ReturnItem.returnedName, h]
  | binary op left right => simp [ReturnItem.returnedName, h]
  | unary op operand => simp [ReturnItem.returnedName, h]
  | call function arguments => simp [ReturnItem.returnedName, h]

/-! ### The chain of a path -/

/-- The step that an edge becomes. -/
def EdgePattern.step (e : EdgePattern) : ChainStep :=
  { groups := e.groups, direction := e.direction }

/-- An edge can be a step between positions of some variables: it has no length, no property to
equal, and none of their variables. -/
structure EdgePattern.IsStep (e : EdgePattern) (names : List String) : Prop where
  length_eq : e.length = none
  isEmpty : ∀ m ∈ e.properties, m.isEmpty
  name_notMem : ∀ name ∈ e.name, name ∉ names

namespace PathPattern

/-- The edges of a path from its start to its end. -/
def edges (p : PathPattern) : List EdgePattern := p.segments.map Segment.edge

/-- The chain that a path becomes. -/
def chain (p : PathPattern) : Chain where
  nodes := p.chainNodes
  steps := p.segments.map (fun segment => segment.edge.step)

/-- The steps of a chain are those of the edges. -/
lemma steps_chain (p : PathPattern) : p.chain.steps = p.edges.map EdgePattern.step := by
  simp [chain, edges]

/-- An edge passes exactly if it is a step beside the nodes. -/
lemma checkEdge_eq_ok {nodes : List ChainNode} {e : EdgePattern} {step : ChainStep} :
    checkEdge nodes e = .ok step ↔ step = e.step ∧ e.IsStep (nodes.map ChainNode.name) := by
  rw [checkEdge]
  constructor
  · intro h
    split at h
    · cases h
    · rename_i hlength
      split at h
      · cases h
      · rename_i hproperties
        have hempty : ∀ m ∈ e.properties, m.isEmpty := by
          intro m hm
          rw [Option.mem_def.1 hm] at hproperties
          simpa using hproperties
        split at h
        · rename_i name hname
          split at h
          · cases h
          · rename_i hnew
            cases h
            refine ⟨rfl, by simpa using hlength, hempty, fun x hx hmem => hnew ?_⟩
            cases hname.symm.trans hx
            simpa using hmem
        · rename_i hname
          cases h
          exact ⟨rfl, by simpa using hlength, hempty, fun x hx => by cases hname.symm.trans hx⟩
  · rintro ⟨rfl, hlength, hempty, hnew⟩
    have hproperties : e.properties.any (fun m => !m.isEmpty) = false := by
      cases hm : e.properties with
      | none => rfl
      | some m => simpa using hempty m hm
    cases hname : e.name with
    | none => simp [hlength, hproperties, EdgePattern.step]
    | some name =>
        have hany : nodes.any (fun n => n.name == name) = false := by
          simpa using hnew name hname
        simp [hlength, hproperties, hany, EdgePattern.step]

/-- **A path makes a chain** if every edge of it can be a step. -/
lemma toChain_eq_ok {p : PathPattern} {c : Chain} :
    p.toChain = .ok c
      ↔ c = p.chain ∧ ∀ e ∈ p.edges, e.IsStep (p.chain.nodes.map ChainNode.name) := by
  rw [toChain, bind_eq_ok, edges, List.forall_mem_map]
  constructor
  · rintro ⟨steps, hsteps, hc⟩
    obtain ⟨rfl, hall⟩ := (mapM_eq_ok fun _ _ h => (checkEdge_eq_ok.1 h).1).1 hsteps
    cases hc
    exact ⟨rfl, fun segment hsegment => (checkEdge_eq_ok.1 (hall segment hsegment)).2⟩
  · rintro ⟨rfl, hall⟩
    refine ⟨_, (mapM_eq_ok fun _ _ h => (checkEdge_eq_ok.1 h).1).2 ⟨rfl,
      fun segment hsegment => ?_⟩, rfl⟩
    exact checkEdge_eq_ok.2 ⟨rfl, hall segment hsegment⟩

lemma mem_edgeVariables {p : PathPattern} {name : String} :
    name ∈ p.edgeVariables ↔ ∃ e ∈ p.edges, e.name = some name := by
  simp [edgeVariables, edges]

/-- The nodes of a chain, place by place. -/
lemma getElem?_chainNodesFrom (offset k : Nat) (nodes : List NodePattern) :
    (chainNodesFrom offset nodes)[k]? = (nodes[k]?).map (fun n => n.toChainNode (offset + k)) := by
  induction nodes generalizing offset k with
  | nil => rfl
  | cons n rest ih =>
      cases k with
      | zero => rfl
      | succ k => simpa [chainNodesFrom, Nat.add_assoc, Nat.add_comm 1] using ih (offset + 1) k

/-- A position of the chain is the node of the path that stands there. -/
lemma getElem?_chain (p : PathPattern) (k : Nat) :
    p.chain.nodes[k]? = (p.nodes[k]?).map (fun n => n.toChainNode k) := by
  rw [chain, chainNodes, getElem?_chainNodesFrom, Nat.zero_add]

lemma getElem?_chain_of_eq_some {p : PathPattern} {k : Nat} {n : NodePattern}
    (hn : p.nodes[k]? = some n) :
    p.chain.nodes[k]? = some (n.toChainNode k) := by
  rw [getElem?_chain, hn]
  rfl

@[simp] lemma length_nodes_chain (p : PathPattern) : p.chain.nodes.length = p.nodes.length := by
  have key : ∀ (nodes : List NodePattern) (offset : Nat),
      (chainNodesFrom offset nodes).length = nodes.length := by
    intro nodes
    induction nodes with
    | nil => intro _; rfl
    | cons n rest ih => intro offset; simp [chainNodesFrom, ih]
  exact key p.nodes 0

/-- The comparisons of inline maps, place by place. -/
lemma mem_inlineFrom {e : Expr} {offset : Nat} {nodes : List NodePattern} :
    e ∈ inlineFrom offset nodes
      ↔ ∃ (k : Nat) (n : NodePattern), nodes[k]? = some n ∧ e ∈ n.comparisons (offset + k) := by
  induction nodes generalizing offset with
  | nil => simp [inlineFrom]
  | cons n rest ih =>
      rw [inlineFrom, List.mem_append, ih]
      constructor
      · rintro (h | ⟨k, n', hn', h⟩)
        · exact ⟨0, n, rfl, h⟩
        · exact ⟨k + 1, n', hn', by rwa [Nat.add_comm k, ← Nat.add_assoc]⟩
      · rintro ⟨_ | k, n', hn', h⟩
        · cases hn'
          exact .inl h
        · exact .inr ⟨k, n', hn', by rwa [Nat.add_comm k, ← Nat.add_assoc] at h⟩

/-- The comparisons of a path are those of its nodes, each about the variable of its position. -/
lemma mem_inlinePredicates {p : PathPattern} {e : Expr} :
    e ∈ p.inlinePredicates ↔ ∃ (k : Nat) (n : NodePattern), p.nodes[k]? = some n
      ∧ e ∈ n.comparisons k := by
  simp [inlinePredicates, mem_inlineFrom]

lemma mem_nodeVariables {p : PathPattern} {name : String} :
    name ∈ p.nodeVariables ↔ ∃ (k : Nat) (n : NodePattern), p.nodes[k]? = some n
      ∧ n.name = some name := by
  rw [nodeVariables, List.mem_filterMap]
  constructor
  · rintro ⟨n, hn, hname⟩
    obtain ⟨k, hk⟩ := List.mem_iff_getElem?.1 hn
    exact ⟨k, n, hk, hname⟩
  · rintro ⟨k, n, hk, hname⟩
    exact ⟨n, List.mem_of_getElem? hk, hname⟩

/-- The variables of the positions are those that are written, and one made up for each node
without. -/
lemma mem_names_chain {p : PathPattern} {name : String} :
    name ∈ p.chain.nodes.map ChainNode.name
      ↔ name ∈ p.nodeVariables
        ∨ ∃ (k : Nat) (n : NodePattern), p.nodes[k]? = some n ∧ n.name = none
          ∧ name = anonymousName k := by
  rw [List.mem_map, mem_nodeVariables]
  constructor
  · rintro ⟨x, hx, rfl⟩
    obtain ⟨k, hk⟩ := List.mem_iff_getElem?.1 hx
    rw [getElem?_chain] at hk
    obtain ⟨n, hn, rfl⟩ := Option.map_eq_some_iff.1 hk
    cases hname : n.name with
    | none =>
        exact .inr ⟨k, n, hn,
          hname, by simp [NodePattern.toChainNode, NodePattern.variableAt, hname]⟩
    | some name =>
        exact .inl ⟨k, n, hn, by simp [NodePattern.toChainNode, NodePattern.variableAt, hname]⟩
  · rintro (⟨k, n, hn, hname⟩ | ⟨k, n, hn, hname, rfl⟩)
    · exact ⟨_, List.mem_of_getElem? (getElem?_chain_of_eq_some hn),
        by simp [NodePattern.toChainNode, NodePattern.variableAt, hname]⟩
    · exact ⟨_, List.mem_of_getElem? (getElem?_chain_of_eq_some hn),
        by simp [NodePattern.toChainNode, NodePattern.variableAt, hname]⟩

end PathPattern

/-- A position keeps the variable that was written at its node. -/
lemma NodePattern.variableAt_unnamed {n : NodePattern} (h : n.name = none) (k : Nat) :
    n.variableAt k = anonymousName k := by
  rw [variableAt, h]
  rfl

lemma NodePattern.name_toChainNode (n : NodePattern) {name : String}
    (h : n.name = some name) (k : Nat) :
    (n.toChainNode k).name = name := by
  rw [toChainNode, variableAt, h]
  rfl

/-- The comparisons of a node are those of the entries of its map. -/
lemma NodePattern.mem_comparisons {n : NodePattern} {k : Nat} {e : Expr} :
    e ∈ n.comparisons k ↔ ∃ m ∈ n.properties, ∃ entry ∈ m.entries,
      e = .equals (.property (n.variableAt k) entry.1) (.literal entry.2) := by
  rw [comparisons]
  cases n.properties <;> simp [eq_comm]

/-! ### Conjunctions -/

lemma holds_foldl_and {s : Store} {f : Lookup} (e : Expr) (rest : List Expr) :
    (rest.foldl Expr.and e).holds s f ↔ e.holds s f ∧ ∀ e' ∈ rest, e'.holds s f := by
  induction rest generalizing e with
  | nil => simp
  | cons first rest ih =>
      rw [List.foldl_cons, ih, Expr.and, Expr.holds_connective]
      simp [Connective.apply, and_assoc]

/-- A conjunction holds if all of its parts hold; of no parts there is nothing to hold. -/
lemma holds_conjunction {s : Store} {f : Lookup} {es : List Expr} :
    (∀ e ∈ conjunction es, e.holds s f) ↔ ∀ e ∈ es, e.holds s f := by
  cases es with
  | nil => simp [conjunction]
  | cons first rest => simp [conjunction, holds_foldl_and]

/-- The variables of a conjunction are those of its parts. -/
lemma mem_vars_foldl_and {x : String} (e : Expr) (rest : List Expr) :
    x ∈ (rest.foldl Expr.and e).vars ↔ x ∈ e.vars ∨ ∃ e' ∈ rest, x ∈ e'.vars := by
  induction rest generalizing e with
  | nil => simp
  | cons first rest ih =>
      rw [List.foldl_cons, ih, Expr.and, Expr.mem_vars_binary]
      simp [or_assoc]

lemma mem_vars_conjunction {x : String} {es : List Expr} {e : Expr} (he : conjunction es = some e) :
    x ∈ e.vars ↔ ∃ e' ∈ es, x ∈ e'.vars := by
  cases es with
  | nil => cases he
  | cons first rest =>
      cases he
      simp [mem_vars_foldl_and]

/-! ### The chain query of a query -/

namespace Query

/-- **When a query is accepted**, and which chain query comes of it: its clauses can be run, its
path makes a chain, and it returns a variable of the path and asks of no other. -/
lemma compile_eq_ok_iff {q : Query} {c : ChainQuery} :
    q.compile = .ok c ↔ q.checkClauses = .ok () ∧ ∃ p item, q.path = .ok p ∧ p.toChain = .ok c.chain
      ∧ q.returnedItem = .ok item ∧ item.returnedName p = .ok c.returned
      ∧ (∀ e ∈ q.filter, p.checkFilter e = .ok ())
      ∧ c.predicate = conjunction (p.inlinePredicates ++ q.filter.toList)
      ∧ c.column = item.heading.getD c.returned ∧ c.limit = q.limit := by
  constructor
  · intro h
    obtain ⟨_, hclauses, h⟩ := bind_eq_ok.1 h
    obtain ⟨p, hp, h⟩ := bind_eq_ok.1 h
    obtain ⟨chain, hchain, h⟩ := bind_eq_ok.1 h
    obtain ⟨item, hitem, h⟩ := bind_eq_ok.1 h
    obtain ⟨name, hname, h⟩ := bind_eq_ok.1 h
    cases hfilter : q.filter with
    | none =>
        simp only [hfilter] at h
        cases h
        exact ⟨hclauses, p, item, hp, hchain, hitem, hname, by simp, rfl, rfl, rfl⟩
    | some filter =>
        simp only [hfilter] at h
        obtain ⟨_, hcheck, h⟩ := bind_eq_ok.1 h
        cases h
        exact ⟨hclauses, p, item, hp, hchain, hitem, hname, by simpa using hcheck, rfl, rfl, rfl⟩
  · rintro ⟨hclauses, p, item, hp, hchain, hitem, hname, hcheck, hpredicate, hcolumn, hlimit⟩
    obtain ⟨chain, predicate, returned, column, limit⟩ := c
    dsimp only at hchain hname hpredicate hcolumn hlimit
    subst hpredicate hcolumn hlimit
    refine bind_eq_ok.2 ⟨(), hclauses, bind_eq_ok.2 ⟨p, hp, bind_eq_ok.2 ⟨chain, hchain, ?_⟩⟩⟩
    refine bind_eq_ok.2 ⟨item, hitem, bind_eq_ok.2 ⟨returned, hname, ?_⟩⟩
    cases hfilter : q.filter with
    | none => rfl
    | some filter => exact bind_eq_ok.2 ⟨(), hcheck filter hfilter, rfl⟩

/-- **The chain query of an accepted query**, part by part. -/
lemma compile_eq_ok {q : Query} {c : ChainQuery} (h : q.compile = .ok c) :
    ∃ p item, q.path = .ok p ∧ q.returnedItem = .ok item
      ∧ item.value = .var c.returned ∧ c.returned ∈ p.nodeVariables
      ∧ (∀ e ∈ q.filter, ∀ x ∈ e.vars, x ∈ p.nodeVariables)
      ∧ c.chain = p.chain
      ∧ c.predicate = conjunction (p.inlinePredicates ++ q.filter.toList)
      ∧ c.column = item.heading.getD c.returned ∧ c.limit = q.limit := by
  obtain ⟨-, p, item, hp, hchain, hitem, hname, hcheck, hparts⟩ := compile_eq_ok_iff.1 h
  obtain ⟨hvalue, hmem⟩ := ReturnItem.returnedName_eq_ok.1 hname
  exact ⟨p, item, hp, hitem, hvalue, hmem,
    fun e he => (PathPattern.checkFilter_eq_ok.1 (hcheck e he)).2,
      (PathPattern.toChain_eq_ok.1 hchain).1,
    hparts⟩

/-- A limit has no part in what is accepted. -/
lemma compile_limited {q : Query} {c : ChainQuery} (h : q.compile = .ok c) (limit : Option Nat) :
    { q with limit := limit }.compile = .ok { c with limit := limit } := by
  obtain ⟨hclauses, p, item, hp, hchain, hitem, hname, hcheck, hpredicate, hcolumn, -⟩ :=
    compile_eq_ok_iff.1 h
  exact compile_eq_ok_iff.2
    ⟨hclauses, p, item, hp, hchain, hitem, hname, hcheck, hpredicate, hcolumn, rfl⟩

/-- A query with another filter, or with none. -/
def filtered (q : Query) (filter : Option Expr) : Query := { q with filter }

/-- A query stays accepted with another filter that its path allows, and only the predicate changes.
-/
lemma compile_filtered {q : Query} {c : ChainQuery} (h : q.compile = .ok c) {p : PathPattern}
    (hp : q.path = .ok p) {filter : Option Expr} (hcheck : ∀ e ∈ filter, p.checkFilter e = .ok ()) :
    (q.filtered filter).compile
      = .ok { c with predicate := conjunction (p.inlinePredicates ++ filter.toList) } := by
  obtain ⟨hclauses, p', item, hp', hchain, hitem, hname, -, -, hcolumn, hlimit⟩ :=
    compile_eq_ok_iff.1 h
  cases hp.symm.trans hp'
  exact compile_eq_ok_iff.2 ⟨hclauses, p, item, hp, hchain, hitem, hname, hcheck, rfl,
    hcolumn, hlimit⟩

end Query

/-- The steps of a chain fit its positions, and its predicate uses the variables of its positions.
-/
structure ChainQuery.WellFormed (c : ChainQuery) : Prop where
  fits : c.chain.nodes.length = c.chain.steps.length + 1
  vars : ∀ e ∈ c.predicate, ∀ x ∈ e.vars,
    ∃ (k : Nat) (n : ChainNode), c.chain.nodes[k]? = some n ∧ n.name = x

lemma ChainQuery.WellFormed.isWellFormed {c : ChainQuery} (hc : c.WellFormed) :
    c.chain.isWellFormed = true := by
  rw [Chain.isWellFormed, hc.fits]
  exact beq_self_eq_true _

/-- **What is made of a query is well formed.** -/
theorem Query.wellFormed_of_compile {q : Query} {c : ChainQuery} (h : q.compile = .ok c) :
    c.WellFormed := by
  obtain ⟨p, item, -, -, -, -, hfilter, hchain, hpredicate, -, -⟩ := compile_eq_ok h
  refine ⟨?_, fun e he x hx => ?_⟩
  · rw [hchain, PathPattern.length_nodes_chain, PathPattern.nodes, PathPattern.chain]
    simp
  rw [hpredicate] at he
  obtain ⟨part, hpart, hx⟩ := (mem_vars_conjunction he).1 hx
  rw [hchain]
  rcases List.mem_append.1 hpart with hinline | hwhere
  · obtain ⟨k, n, hn, hcomparison⟩ := PathPattern.mem_inlinePredicates.1 hinline
    obtain ⟨m, -, entry, -, rfl⟩ := NodePattern.mem_comparisons.1 hcomparison
    have hxn : x = n.variableAt k := by
      simpa [Expr.vars, Expr.equals, Expr.collect, Expr.noteName] using hx
    exact ⟨k, n.toChainNode k, PathPattern.getElem?_chain_of_eq_some hn, hxn.symm⟩
  · obtain ⟨k, n, hn, hname⟩ :=
      PathPattern.mem_nodeVariables.1 (hfilter part (by simpa using hwhere) x hx)
    exact ⟨k, n.toChainNode k, PathPattern.getElem?_chain_of_eq_some hn, n.name_toChainNode hname k⟩

end CodeGraph
