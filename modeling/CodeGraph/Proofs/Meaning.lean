import CodeGraph.Proofs.EdgeLists
import CodeGraph.Proofs.Matching

/-!
The meaning of a query, and the chain query that has the same.

* `NodePattern.Fits`, `EdgePattern.Joins`, `PathPattern.Matches`: the assignments of nodes of a
  store to the nodes of a path.
* `Query.Yields`: the nodes that a query asks for, told from what is written.
* `Store.mem_farEnds`: the nodes that edges of some groups and directions lead to.
* `anonymousName_injective`, `space_mem_anonymousName`: the variables that are made up differ from
  each other and from those that are written.
* `Query.satisfies_iff`: the rows that satisfy the chain query of a query are the assignments for
  which the query holds.
-/

namespace CodeGraph

/-! ### What is written -/

/-- A node of a store fits a node of a pattern if it carries its labels and equals its property map,
entry by entry. -/
structure NodePattern.Fits (s : Store) (n : NodePattern) (id : NodeId) : Prop where
  labels : ∃ node, s.node? id = some node ∧ node.hasLabels n.labels
  properties : ∀ m ∈ n.properties, ∀ entry ∈ m.entries,
    ((Value.node id).propertyOf s entry.1).compares .eq (.ofProperty entry.2)

/-- An edge of a pattern joins a node to another if the node has an edge in its direction, of one of
its groups if it names any, that leads to the other. -/
def EdgePattern.Joins (s : Store) (e : EdgePattern) (a b : NodeId) : Prop :=
  ∃ n d entry, s.node? a = some n ∧ d ∈ e.direction.directions ∧ entry ∈ (n.edges d).all
    ∧ entry.farEnd d = b ∧ (e.groups = [] ∨ ∃ g ∈ e.groups, entry.group.alike g)

namespace PathPattern

/-- Nodes with one written variable are given one node; a node without a variable is bound to no
other. -/
def Agrees (p : PathPattern) (r : Row) : Prop :=
  ∀ (i j : Nat) (n n' : NodePattern) (name : String), p.nodes[i]? = some n → p.nodes[j]? = some n' →
    n.name = some name → n'.name = some name → r[i]? = r[j]?

/-- An assignment of nodes of a store to the nodes of a path, in their order. -/
structure Matches (s : Store) (p : PathPattern) (r : Row) : Prop where
  length_eq : r.length = p.nodes.length
  fits : ∀ (k : Nat) (n : NodePattern) (id : NodeId), p.nodes[k]? = some n →
    r[k]? = some id → n.Fits s id
  joined : ∀ (k : Nat) (segment : Segment) (a b : NodeId), p.segments[k]? = some segment →
    r[k]? = some a → r[k + 1]? = some b → segment.edge.Joins s a b
  agrees : p.Agrees r

/-- The node of a written variable: that of the first node which has it. -/
def lookup (p : PathPattern) (r : Row) : Lookup := fun name =>
  (p.nodes.findIdx? (fun n => n.name = some name)).bind (fun k => r[k]?)

end PathPattern

/-- **The nodes that a query asks for**: those that its returned variable takes in the assignments
to its path for which its filter holds. -/
def Query.Yields (s : Store) (q : Query) (v : NodeId) : Prop :=
  ∃ matched p returned item name r, q.matched = [matched] ∧ matched.paths = [p]
    ∧ q.returned = some returned ∧ returned.items = [item] ∧ item.value = .var name
    ∧ p.Matches s r ∧ (∀ e ∈ q.filter, e.holds s (p.lookup r)) ∧ p.lookup r name = some v

/-! ### Variables that are made up -/

lemma space_mem_anonymousName (k : Nat) : ' ' ∈ (anonymousName k).toList := by
  rw [anonymousName, String.toList_append]
  exact List.mem_append_left _ (by decide)

lemma anonymousName_injective {i j : Nat} (h : anonymousName i = anonymousName j) : i = j := by
  have hdigits : Nat.toDigits 10 i = Nat.toDigits 10 j := by
    have hlist := congrArg String.toList h
    simp only [anonymousName, String.toList_append, List.append_cancel_left_eq] at hlist
    rwa [Nat.toString_eq_repr, Nat.toString_eq_repr, Nat.toList_repr, Nat.toList_repr] at hlist
  calc i = Nat.ofDigitChars 10 (Nat.toDigits 10 i) 0 := Nat.ofDigitChars_ten_toDigits.symm
    _ = Nat.ofDigitChars 10 (Nat.toDigits 10 j) 0 := by rw [hdigits]
    _ = j := Nat.ofDigitChars_ten_toDigits

/-- Two nodes of a path have one variable in the chain only if they are one node or it was written
at both. -/
lemma NodePattern.variableAt_eq {n n' : NodePattern} {i j : Nat}
    (hn : ∀ name ∈ n.name, ' ' ∉ name.toList) (hn' : ∀ name ∈ n'.name, ' ' ∉ name.toList)
    (h : n.variableAt i = n'.variableAt j) :
    i = j ∨ ∃ name, n.name = some name ∧ n'.name = some name := by
  rw [variableAt, variableAt] at h
  cases hname : n.name with
  | none =>
      cases hname' : n'.name with
      | none =>
          simp only [hname, hname', Option.getD_none] at h
          exact .inl (anonymousName_injective h)
      | some name =>
          simp only [hname, hname', Option.getD_none, Option.getD_some] at h
          exact absurd (h ▸ space_mem_anonymousName i) (hn' name hname')
  | some name =>
      cases hname' : n'.name with
      | none =>
          simp only [hname, hname', Option.getD_none, Option.getD_some] at h
          exact absurd (h ▸ space_mem_anonymousName j) (hn name hname)
      | some name' =>
          simp only [hname, hname', Option.getD_some] at h
          exact .inr ⟨name, rfl, by rw [h]⟩

/-! ### Edges -/

lemma Store.mem_unseen {x : NodeId} (seen ids : List NodeId) :
    x ∈ unseen seen ids ↔ x ∈ ids ∧ x ∉ seen := by
  induction ids generalizing seen with
  | nil => simp [unseen]
  | cons id rest ih =>
      by_cases hid : id ∈ seen
      · rw [unseen, if_pos hid, ih, List.mem_cons]
        constructor
        · rintro ⟨hrest, hseen⟩
          exact ⟨.inr hrest, hseen⟩
        · rintro ⟨rfl | hrest, hseen⟩
          · exact absurd hid hseen
          · exact ⟨hrest, hseen⟩
      · rw [unseen, if_neg hid, List.mem_cons, ih, List.mem_cons, List.mem_cons]
        by_cases hx : x = id
        · simp [hx, hid]
        · simp [hx]

/-- The far ends of a node are those of its edges in one of the directions, of one of the groups if
there are any. -/
lemma Store.mem_farEnds {s : Store} {a b : NodeId} {groups : List Group}
    {directions : List Direction} :
    b ∈ s.farEnds a groups directions
      ↔ ∃ n d entry, s.node? a = some n ∧ d ∈ directions ∧ entry ∈ (n.edges d).all
        ∧ entry.farEnd d = b
        ∧ (groups = [] ∨ ∃ g ∈ groups, entry.group.alike g) := by
  rw [Store.farEnds]
  cases s.node? a with
  | none => simp
  | some n =>
      simp only [Store.mem_unseen, List.not_mem_nil, not_false_eq_true, and_true, List.mem_flatMap,
        List.mem_map, EdgeLists.mem_selectAny]
      constructor
      · rintro ⟨d, hd, entry, ⟨hentry, hgroup⟩, hb⟩
        exact ⟨n, d, entry, rfl, hd, hentry, hb, hgroup⟩
      · rintro ⟨_, d, entry, heq, hd, hentry, hb, hgroup⟩
        cases heq
        exact ⟨d, hd, entry, ⟨hentry, hgroup⟩, hb⟩

/-- A step leads from a node to those that its edge pattern joins it to. -/
lemma EdgePattern.mem_farEnds {s : Store} {e : EdgePattern} {a b : NodeId} :
    b ∈ s.farEnds a e.groups e.direction.directions ↔ e.Joins s a b := Store.mem_farEnds

/-! ### The chain of a path means the path -/

namespace PathPattern

variable {p : PathPattern} {r : Row}

/-- The variables written at the nodes of a path hold no space. -/
def Spaceless (p : PathPattern) : Prop := ∀ name ∈ p.nodeVariables, ' ' ∉ name.toList

/-- In an assignment the first node of a variable speaks for all. -/
lemma lookup_eq (h : p.Agrees r) {k : Nat} {n : NodePattern} {name : String}
    (hn : p.nodes[k]? = some n)
    (hname : n.name = some name) : p.lookup r name = r[k]? := by
  cases hfirst : p.nodes.findIdx? (fun n => n.name = some name) with
  | none =>
      have hno := List.findIdx?_eq_none_iff.1 hfirst n (List.mem_of_getElem? hn)
      simp [hname] at hno
  | some first =>
      obtain ⟨hlt, hfound, -⟩ := List.findIdx?_eq_some_iff_getElem.1 hfirst
      have heq := h first k _ n name (List.getElem?_eq_getElem hlt) hn
        (of_decide_eq_true hfound) hname
      rw [lookup, hfirst]
      exact heq

/-- Rows agree with themselves on the chain exactly if they do on the variables that are written. -/
lemma agrees_chain_iff (hspace : p.Spaceless) : Matched.Agrees p.chain r ↔ p.Agrees r := by
  have hname : ∀ {k : Nat} {n : NodePattern}, p.nodes[k]? = some n →
      ∀ name ∈ n.name, ' ' ∉ name.toList :=
    fun hn name hname => hspace name (mem_nodeVariables.2 ⟨_, _, hn, hname⟩)
  constructor
  · intro h i j n n' name hn hn' hi hj
    refine h i j _ _ (getElem?_chain_of_eq_some hn) (getElem?_chain_of_eq_some hn') ?_
    rw [n.name_toChainNode hi, n'.name_toChainNode hj]
  · intro h i j x x' hx hx' heq
    rw [getElem?_chain] at hx hx'
    obtain ⟨n, hn, rfl⟩ := Option.map_eq_some_iff.1 hx
    obtain ⟨n', hn', rfl⟩ := Option.map_eq_some_iff.1 hx'
    rcases NodePattern.variableAt_eq (hname hn) (hname hn') heq with rfl | ⟨name, hi, hj⟩
    · rfl
    · exact h i j n n' name hn hn' hi hj

/-- A written variable is looked up in a row of the chain as in the assignment. -/
lemma lookup_chain (h : Matched.Agrees p.chain r) (hspace : p.Spaceless) {name : String}
    (hname : name ∈ p.nodeVariables) : p.chain.lookup r name = p.lookup r name := by
  obtain ⟨k, n, hn, hwritten⟩ := mem_nodeVariables.1 hname
  rw [lookup_eq ((agrees_chain_iff hspace).1 h) hn hwritten, ← n.name_toChainNode hwritten k]
  exact Chain.lookup_eq h (getElem?_chain_of_eq_some hn)

/-- The comparisons of a path hold of a row exactly if the nodes of the row equal the property maps.
-/
lemma holds_inlinePredicates_iff {s : Store} (h : Matched.Agrees p.chain r)
    (hlen : r.length = p.nodes.length) :
    (∀ e ∈ p.inlinePredicates, e.holds s (p.chain.lookup r))
      ↔ ∀ (k : Nat) (n : NodePattern) (id : NodeId), p.nodes[k]? = some n → r[k]? = some id →
        ∀ m ∈ n.properties, ∀ entry ∈ m.entries,
          ((Value.node id).propertyOf s entry.1).compares .eq (.ofProperty entry.2) := by
  have hholds : ∀ {k : Nat} {n : NodePattern} {id : NodeId} (entry : String × Property),
      p.nodes[k]? = some n → r[k]? = some id →
      (Expr.equals (.property (n.variableAt k) entry.1) (.literal entry.2)).holds s
        (p.chain.lookup r)
        = ((Value.node id).propertyOf s entry.1).compares .eq (.ofProperty entry.2) := by
    intro k n id entry hn hid
    have hlookup : p.chain.lookup r (n.variableAt k) = some id :=
      (Chain.lookup_eq h (getElem?_chain_of_eq_some hn)).trans hid
    simp [Expr.equals, Expr.value, hlookup, Value.ofNode?]
  constructor
  · intro hall k n id hn hid m hm entry hentry
    rw [← hholds entry hn hid]
    have hcomparison := (n.mem_comparisons (k := k)).2 ⟨m, hm, entry, hentry, rfl⟩
    exact hall _ (mem_inlinePredicates.2 ⟨k, n, hn, hcomparison⟩)
  · intro hall e he
    obtain ⟨k, n, hn, hcomparison⟩ := mem_inlinePredicates.1 he
    obtain ⟨m, hm, entry, hentry, rfl⟩ := NodePattern.mem_comparisons.1 hcomparison
    have hk : k < r.length := hlen ▸ (List.getElem?_eq_some_iff.1 hn).1
    have hid : r[k]? = some r[k] := List.getElem?_eq_getElem hk
    rw [hholds entry hn hid]
    exact hall k n r[k] hn hid m hm entry hentry

/-- **A row that fits the chain of a path and its comparisons** is an assignment to the path. -/
lemma matches_iff {s : Store} (hspace : p.Spaceless) :
    p.Matches s r ↔ p.chain.Fits s r ∧ ∀ e ∈ p.inlinePredicates, e.holds s (p.chain.lookup r) := by
  have hlength : p.chain.nodes.length = p.nodes.length := p.length_nodes_chain
  constructor
  · intro h
    have hagrees := (agrees_chain_iff hspace).2 h.agrees
    refine ⟨⟨h.length_eq.trans hlength.symm, fun k x id hx hid => ?_,
      fun k step a b hstep ha hb => ?_, hagrees⟩, ?_⟩
    · rw [getElem?_chain] at hx
      obtain ⟨n, hn, rfl⟩ := Option.map_eq_some_iff.1 hx
      exact (h.fits k n id hn hid).labels
    · rw [chain, List.getElem?_map] at hstep
      obtain ⟨segment, hsegment, rfl⟩ := Option.map_eq_some_iff.1 hstep
      exact EdgePattern.mem_farEnds.2 (h.joined k segment a b hsegment ha hb)
    · exact (holds_inlinePredicates_iff hagrees h.length_eq).2 fun k n id hn hid =>
        (h.fits k n id hn hid).properties
  · rintro ⟨h, hinline⟩
    have hlen : r.length = p.nodes.length := h.length_eq.trans hlength
    have hproperties := (holds_inlinePredicates_iff h.agrees hlen).1 hinline
    refine ⟨hlen, fun k n id hn hid => ⟨h.labels k _ id (getElem?_chain_of_eq_some hn) hid,
      hproperties k n id hn hid⟩, fun k segment a b hsegment ha hb =>
        ?_, (agrees_chain_iff hspace).1 h.agrees⟩
    refine EdgePattern.mem_farEnds.1 (h.joined k segment.edge.step a b ?_ ha hb)
    rw [chain, List.getElem?_map, hsegment]
    rfl

end PathPattern

namespace Query

/-- **The chain query of a query means the query**: the rows that satisfy it are the assignments to
the path for which the filter holds. -/
theorem satisfies_iff {s : Store} {q : Query} {c : ChainQuery} {p : PathPattern}
    (hc : q.compile = .ok c) (hp : q.path = .ok p) (hspace : p.Spaceless) {r : Row} :
    c.Satisfies s r ↔ p.Matches s r ∧ ∀ e ∈ q.filter, e.holds s (p.lookup r) := by
  obtain ⟨p', item, hp', -, -, -, hvars, hchain, hpredicate, -, -⟩ := compile_eq_ok hc
  cases hp.symm.trans hp'
  have hfilter : ∀ e ∈ q.filter, Matched.Agrees p.chain r →
      e.holds s (p.chain.lookup r) = e.holds s (p.lookup r) := fun e he hagrees =>
    Expr.holds_congr fun x hx => PathPattern.lookup_chain hagrees hspace (hvars e he x hx)
  have hparts : (∀ e ∈ c.predicate, e.holds s (p.chain.lookup r))
      ↔ (∀ e ∈ p.inlinePredicates, e.holds s (p.chain.lookup r))
        ∧ ∀ e ∈ q.filter, e.holds s (p.chain.lookup r) := by
    rw [hpredicate, holds_conjunction, List.forall_mem_append]
    simp
  rw [PathPattern.matches_iff hspace, and_assoc]
  constructor
  · rintro ⟨hfits, hholds⟩
    rw [hchain] at hfits hholds
    obtain ⟨hinline, hwhere⟩ := hparts.1 hholds
    exact ⟨hfits, hinline, fun e he => hfilter e he hfits.agrees ▸ hwhere e he⟩
  · rintro ⟨hfits, hinline, hwhere⟩
    refine ⟨hchain ▸ hfits, ?_⟩
    rw [hchain]
    exact hparts.2 ⟨hinline, fun e he => (hfilter e he hfits.agrees).symm ▸ hwhere e he⟩

end Query
end CodeGraph
