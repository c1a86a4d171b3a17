import CodeGraph.Proofs.Bindings

/-!
What a query finds in a store it finds in every store that grows out of it.

* `Change.IsGrowth`: the changes that add a node or an edge.
* `Node.GrowsTo`, `Store.GrowsTo`: nodes keep their kind, their properties and their edges, and may
  have more edges, among more nodes. `Store.growsTo_after` and `Store.growsTo_run` say so of one
  change and of a sequence of them.
* `Store.GrowsTo.satisfies`: a row that satisfies a chain query satisfies it in what the store grows
  to. A filter reads nothing of a row but the properties of its nodes, so this holds of negations
  too.
* `Bindings.Within`: bindings of the same variables, every set a part of another.
* `Query.answer_sublist_of_growth`: bindings and answers.
-/

namespace CodeGraph

/-! ### Growing -/

/-- A change that adds a node or an edge. -/
def Change.IsGrowth : Change → Prop
  | .setProperty _ _ _ => False
  | _ => True

/-- A node grows to another of its kind with the same properties that has all of its edges. -/
structure Node.GrowsTo (n n' : Node) : Prop where
  kind_eq : n.kind = n'.kind
  properties_eq : n.properties = n'.properties
  edges_subset : ∀ d, (n.edges d).all ⊆ (n'.edges d).all

/-- A store grows to another if its nodes do, each under its name. -/
def Store.GrowsTo (s t : Store) : Prop :=
  ∀ id n, s.node? id = some n → ∃ n', t.node? id = some n' ∧ n.GrowsTo n'

lemma Node.GrowsTo.refl (n : Node) : n.GrowsTo n := ⟨rfl, rfl, fun _ => List.Subset.refl _⟩

lemma Node.GrowsTo.trans {n₁ n₂ n₃ : Node} (h : n₁.GrowsTo n₂) (h' : n₂.GrowsTo n₃) :
    n₁.GrowsTo n₃ where
  kind_eq := h.kind_eq.trans h'.kind_eq
  properties_eq := h.properties_eq.trans h'.properties_eq
  edges_subset d := List.Subset.trans (h.edges_subset d) (h'.edges_subset d)

lemma Node.growsTo_linked (n : Node) (id : NodeId) (l : Link) : n.GrowsTo (n.linked id l) where
  kind_eq := rfl
  properties_eq := rfl
  edges_subset d := by
    rw [Node.edges_linked]
    split
    · exact EdgeLists.all_subset_all_record _ _ _ _
    · exact List.Subset.refl _

namespace Store

variable {s t : Store}

lemma GrowsTo.refl (s : Store) : s.GrowsTo s := fun _ n hn => ⟨n, hn, .refl n⟩

lemma GrowsTo.trans {s₁ s₂ s₃ : Store} (h : s₁.GrowsTo s₂) (h' : s₂.GrowsTo s₃) :
    s₁.GrowsTo s₃ := by
  intro id n hn
  obtain ⟨n', hn', hgrows⟩ := h id n hn
  obtain ⟨n'', hn'', hgrows'⟩ := h' id n' hn'
  exact ⟨n'', hn'', hgrows.trans hgrows'⟩

/-- A node that is added takes a name that was free, and joining two nodes records entries only. -/
lemma growsTo_after (s : Store) {c : Change} (hc : c.IsGrowth) : s.GrowsTo (s.after c) := by
  intro id n hn
  obtain ⟨m, -, -, hafter⟩ | ⟨l, -, -, -, -, hafter⟩ | ⟨_, key, value, rfl, -, -⟩
      | ⟨-, -, hafter⟩ :=
    s.after_cases c
  · have hid : id.index ≠ s.size := by
      have hlt := (s.hasNode_iff id).1 ((s.hasNode_iff_node? id).2 ⟨n, hn⟩)
      exact Nat.ne_of_lt hlt
    refine ⟨n, ?_, .refl n⟩
    rw [hafter, node?_add, if_neg hid, hn]
  · refine ⟨n.linked id l, ?_, n.growsTo_linked id l⟩
    rw [hafter, node?_link, hn]
    rfl
  · exact hc.elim
  · exact ⟨n, by rw [hafter, hn], .refl n⟩

/-- **Growth**: changes that add nodes and edges leave what was there, whichever of them are
refused. -/
theorem growsTo_run (s : Store) {changes : List Change} (h : ∀ c ∈ changes, c.IsGrowth) :
    s.GrowsTo (s.run changes) := by
  induction changes generalizing s with
  | nil => exact .refl s
  | cons c rest ih =>
      have hrest := ih (s.after c) fun c' hc' => h c' (List.mem_cons_of_mem _ hc')
      exact (s.growsTo_after (h c List.mem_cons_self)).trans hrest

lemma Reachable.run (hs : s.Reachable) (changes : List Change) : (s.run changes).Reachable := by
  obtain ⟨before, rfl⟩ := hs
  exact ⟨before ++ changes, (run_append {} before changes).symm⟩

/-! ### Rows of a growing store -/

/-- The properties of a node that is there stay the same. -/
lemma GrowsTo.propertyOf_eq (h : s.GrowsTo t) {id : NodeId} {n : Node} (hn : s.node? id = some n)
    (key : String) : (Value.node id).propertyOf s key = (Value.node id).propertyOf t key := by
  obtain ⟨n', hn', hgrows⟩ := h id n hn
  have hget : n.get? key = n'.get? key := by rw [Node.get?, Node.get?, hgrows.properties_eq]
  simp only [Value.propertyOf, property?, hn, hn', Option.bind_some, hget]

/-- No step asks for an edge to be absent. -/
lemma GrowsTo.farEnds_subset (h : s.GrowsTo t) (id : NodeId) (groups : List Group)
    (directions : List Direction) :
    s.farEnds id groups directions ⊆ t.farEnds id groups directions := by
  intro b hb
  obtain ⟨n, d, entry, hn, hd, hentry, hfar, hgroup⟩ := mem_farEnds.1 hb
  obtain ⟨n', hn', hgrows⟩ := h id n hn
  exact mem_farEnds.2 ⟨n', d, entry, hn', hd, hgrows.edges_subset d hentry, hfar, hgroup⟩

lemma GrowsTo.fits (h : s.GrowsTo t) {c : Chain} {r : Row} (hr : c.Fits s r) : c.Fits t r := by
  refine ⟨hr.length_eq, fun k n id hn hid => ?_, fun k step a b hstep ha hb => ?_, hr.agrees⟩
  · obtain ⟨node, hnode, hlabels⟩ := hr.labels k n id hn hid
    obtain ⟨node', hnode', hgrows⟩ := h id node hnode
    exact ⟨node', hnode', Node.hasLabels_congr hgrows.kind_eq ▸ hlabels⟩
  · exact h.farEnds_subset a step.groups _ (hr.joined k step a b hstep ha hb)

/-- **A row that satisfies a chain query satisfies it ever after.** -/
theorem GrowsTo.satisfies (h : s.GrowsTo t) {q : ChainQuery} {r : Row} (hr : q.Satisfies s r) :
    q.Satisfies t r := by
  refine ⟨h.fits hr.fits, fun e he => ?_⟩
  have hsame : e.holds s (q.chain.lookup r) = e.holds t (q.chain.lookup r) := by
    refine Expr.holds_congr_store fun x _ id hid key _ => ?_
    obtain ⟨n, hn⟩ := ChainQuery.Binds.exists_node ⟨r, hr, hid⟩
    exact h.propertyOf_eq hn key
  exact hsame ▸ hr.holds e he

lemma GrowsTo.binds (h : s.GrowsTo t) {q : ChainQuery} {name : String} {id : NodeId}
    (hbinds : q.Binds s name id) : q.Binds t name id := by
  obtain ⟨r, hr, hid⟩ := hbinds
  exact ⟨r, h.satisfies hr, hid⟩

end Store

/-! ### Bindings that grow -/

namespace Bindings

/-- Bindings are within others if they are of the same variables in the same order, and every set is
found in its order in the set of the other. -/
def Within (bound bound' : Bindings) : Prop :=
  List.Forall₂ (fun b b' => b.1 = b'.1 ∧ b.2.Sublist b'.2) bound bound'

lemma Tell.within {bound bound' : Bindings} {names : List String}
    {binds binds' : String → NodeId → Prop} (h : bound.Tell names binds)
    (h' : bound'.Tell names binds')
    (hbinds : ∀ name id, binds name id → binds' name id) : bound.Within bound' :=
  h.forall₂ h' fun name _ _ _ hset hset' hmem hmem' =>
    hset.sublist_of_subset hset' fun id hid => (hmem' id).2 (hbinds name id ((hmem id).1 hid))

end Bindings

namespace Query

variable {s : Store} {q : Query} {c : ChainQuery}

/-- **Queries are monotone under growth.** Take a store that changes make of the empty one, and what
it grows to when nodes and edges are added, whether the nodes bring edges or not and whichever
changes are refused. Whatever the schedules, the bindings of an accepted query are then within those
that it has later, and without a limit so are the nodes of its answer. -/
theorem answer_sublist_of_growth (hs : s.Reachable) {changes : List Change}
    (hgrowth : ∀ change ∈ changes, change.IsGrowth) (hc : q.compile = .ok c)
    (first second : Schedule) :
    ∃ a b bound bound', q.answer first s = .ok a ∧ q.answer second (s.run changes) = .ok b
      ∧ q.bindings first s = .ok bound ∧ q.bindings second (s.run changes) = .ok bound'
      ∧ bound.Within bound' ∧ (q.limit = none → a.ids.Sublist b.ids) := by
  have hgrows : s.GrowsTo (s.run changes) := s.growsTo_run hgrowth
  have ht := hs.run changes
  obtain ⟨p, item, hp, -, -, hreturned, -⟩ := compile_eq_ok hc
  obtain ⟨bound, hbound, htell⟩ := bindings_tell hs.indexed first hc hp
  obtain ⟨bound', hbound', htell'⟩ := bindings_tell ht.indexed second hc hp
  obtain ⟨ids, -, hascending, hmem⟩ := htell.exists_lookup (List.mem_eraseDups.2 hreturned)
  obtain ⟨ids', -, hascending', hmem'⟩ := htell'.exists_lookup (List.mem_eraseDups.2 hreturned)
  obtain ⟨a, ha, hids⟩ := answer_limited hs.indexed first hc hascending hmem q.limit
  obtain ⟨b, hb, hids'⟩ := answer_limited ht.indexed second hc hascending' hmem' q.limit
  refine ⟨a, b, bound, bound', ha, hb, hbound, hbound',
    htell.within htell' fun name id => hgrows.binds, fun hlimit => ?_⟩
  rw [hids, hids', hlimit]
  exact hascending.sublist_of_subset hascending' fun id hid =>
    (hmem' id).2 (hgrows.binds ((hmem id).1 hid))

/-- A function that calls another, and the same after a copy of it was added with its call, a call
was added from the side of what is called, and another was refused. Who calls something other than
itself is asked with a negation. -/
theorem answer_sublist_of_growth_of_calls :
    let s := Store.run {} [.add { kind := .functionDeclaration },
      .add { kind := .functionDeclaration }, .addEdge ⟨0⟩ ⟨"calls"⟩ ⟨1⟩ .outgoing]
    let changes := (s.node? ⟨0⟩).toList.map Change.add
      ++ [.addEdge ⟨0⟩ ⟨"calls"⟩ ⟨1⟩ .incoming, .addEdge ⟨7⟩ ⟨"calls"⟩ ⟨1⟩ .outgoing]
    let q := matching
      { start := { name := some "f" }
        segments := [⟨{ direction := .outgoing }, { name := some "g" }⟩] }
      (some (.unary .not (.equals (.var "f") (.var "g")))) "f"
    s.Reachable ∧ (∀ change ∈ changes, change.IsGrowth) ∧ (∃ c, q.compile = .ok c)
      ∧ q.bindings {} (s.run changes) = .ok [("f", [⟨0⟩, ⟨1⟩, ⟨2⟩]), ("g", [⟨0⟩, ⟨1⟩])]
      ∧ ∃ a b, q.answer {} s = .ok a ∧ q.answer {} (s.run changes) = .ok b
        ∧ a.ids.Sublist b.ids := by
  intro s changes q
  have hgrowth : ∀ change ∈ changes, change.IsGrowth := by
    intro change hchange
    rcases List.mem_append.1 hchange with hcopy | hedge
    · obtain ⟨n, -, rfl⟩ := List.mem_map.1 hcopy
      trivial
    · obtain rfl | rfl : change = _ ∨ change = _ := by simpa using hedge
      · trivial
      · trivial
  obtain ⟨a, b, -, -, ha, hb, -, -, -, hsub⟩ :=
    answer_sublist_of_growth (q := q) (s := s) ⟨_, rfl⟩ hgrowth rfl {} {}
  exact ⟨⟨_, rfl⟩, hgrowth, ⟨_, rfl⟩, by decide +kernel, a, b, ha, hb, hsub rfl⟩

end Query
end CodeGraph
