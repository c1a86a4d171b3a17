import CodeGraph.Answer
import CodeGraph.Proofs.Meaning

/-!
The answer to a query is what the query asks for.

* `ChainQuery.returnedIds_run`: a limit cuts the answer off and does nothing else, though a scan may
  stop at it.
* `Store.Indexed.map_id_filterMap`: nodes are returned under the names by which they were found.
* `Query.answer_yields`: the answer to a query that is accepted.
-/

namespace CodeGraph

/-! ### Limits -/

namespace ChainQuery

variable {s : Store} {q : ChainQuery}

/-- A chain query without its limit. -/
def unlimited (q : ChainQuery) : ChainQuery := { q with limit := none }

lemma WellFormed.unlimited (hq : q.WellFormed) : q.unlimited.WellFormed := ⟨hq.fits, hq.vars⟩

lemma satisfies_unlimited {r : Row} : q.unlimited.Satisfies s r ↔ q.Satisfies s r :=
  ⟨fun h => ⟨h.fits, h.holds⟩, fun h => ⟨h.fits, h.holds⟩⟩

/-- Where there is a step the limit plays no part in matching. -/
lemma run_eq_run_unlimited (schedule : Schedule) (h : q.chain.steps ≠ []) :
    q.run schedule s = q.unlimited.run schedule s := by
  have hfill : ∀ filter, fill schedule s q.chain filter q.limit
      = fill schedule s q.chain filter none := by
    intro filter
    rw [fill, fill]
    cases q.chain.nodes with
    | nil => rfl
    | cons first rest => simp [h]
  simp only [run, unlimited, hfill]
  rfl

/-- A predicate about a single position is not asked of rows: it has one variable at most. -/
lemma rowPredicate?_of_single (hq : q.WellFormed) {first : ChainNode}
    (hnodes : q.chain.nodes = [first]) :
    (Question.ofPredicate s q.predicate).rowPredicate? = none := by
  cases hpredicate : q.predicate with
  | none => rfl
  | some e =>
      have hname : ∀ x ∈ e.vars, x = first.name := by
        intro x hx
        obtain ⟨k, n, hn, rfl⟩ := hq.vars e (by simp [hpredicate]) x hx
        rw [hnodes] at hn
        rw [List.mem_singleton.1 (List.mem_of_getElem? hn)]
      have hnodup := e.nodup_vars
      rw [Question.ofPredicate]
      cases hvars : e.vars with
      | nil =>
          simp only
          split <;> rfl
      | cons x tail =>
          cases tail with
          | nil => rfl
          | cons y rest =>
              have hx := hname x (by simp [hvars])
              have hy := hname y (by simp [hvars])
              simp [hvars, hx, hy] at hnodup

/-- Matching a single position stops at the limit, which cuts off what would be found without it. -/
lemma exists_positions_of_single (hq : q.WellFormed) (schedule : Schedule)
    (h : q.chain.steps = []) :
    ∃ set, (q.run schedule s).positions = [upTo q.limit set]
      ∧ (q.unlimited.run schedule s).positions = [set] := by
  obtain ⟨first, hnodes⟩ : ∃ first, q.chain.nodes = [first] :=
    List.length_eq_one_iff.1 (by rw [hq.fits, h]; rfl)
  have hwell := hq.isWellFormed
  by_cases hnever : Question.ofPredicate s q.predicate = .never
  · have hempty : ∀ limit, ({ q with limit := limit }.run schedule s).positions = [[]] := by
      intro limit
      simp only [run, hwell, hnever, Bool.not_true, Bool.false_eq_true, if_false]
      simp [Matched.empty, hnodes]
    refine ⟨[], ?_, hempty none⟩
    rw [show upTo q.limit ([] : NodeSet) = [] by cases q.limit <;> simp [upTo]]
    exact hempty q.limit
  · have hreused : q.chain.hasReusedVariables = false := by
      simp [Chain.hasReusedVariables, Chain.vars, hnodes, Expr.noteName]
    have hrun : ∀ limit, ({ q with limit := limit }.run schedule s).positions
        = [upTo limit ((scanned s first).filter
            (accepts s first
              (first.filterOf (Question.ofPredicate s q.predicate).nodeFilter?)))] := by
      intro limit
      rw [run_eq (q := { q with limit := limit }) schedule hwell hnever]
      simp [question, prunedMatch, rowPredicate?_of_single hq hnodes, hreused, h, fill, hnodes,
        fillFrom, scan_eq]
    exact ⟨_, hrun q.limit, hrun none⟩

/-- **A limit cuts the answer off** and does nothing else. -/
lemma returnedIds_run (hq : q.WellFormed) (schedule : Schedule) :
    q.returnedIds (q.run schedule s)
      = upTo q.limit ((q.unlimited.run schedule s).positions.getD q.returnedPosition []) := by
  have hids : ∀ m : Matched,
      q.returnedIds m = upTo q.limit (m.positions.getD q.returnedPosition []) := by
    intro m
    rw [returnedIds, List.getD_eq_getElem?_getD]
    cases q.limit <;> rfl
  rw [hids]
  by_cases hsteps : q.chain.steps = []
  · obtain ⟨set, hlimited, hunlimited⟩ := exists_positions_of_single (s := s) hq schedule hsteps
    rw [hlimited, hunlimited]
    cases q.returnedPosition with
    | zero => exact upTo_upTo q.limit set
    | succ k => rfl
  · rw [run_eq_run_unlimited schedule hsteps]

end ChainQuery

/-! ### Answers -/

/-- Nodes that are fetched by their names have these names. -/
lemma Store.Indexed.map_id_filterMap {s : Store} (hs : s.Indexed) {ids : List NodeId}
    (h : ∀ id ∈ ids, ∃ n, s.node? id = some n) : (ids.filterMap s.node?).map Node.id = ids := by
  induction ids with
  | nil => rfl
  | cons id rest ih =>
      obtain ⟨n, hn⟩ := h id List.mem_cons_self
      have hrest := ih fun id hid => h id (List.mem_cons_of_mem _ hid)
      rw [List.filterMap_cons_some hn, List.map_cons, hs.id_eq id n hn, hrest]

namespace Query

/-- The nodes at the position that is returned are those that the query asks for. -/
lemma mem_returned_iff {s : Store} (hs : s.Indexed) (schedule : Schedule) {q : Query}
    {c : ChainQuery} {p : PathPattern} (hc : q.compile = .ok c) (hp : q.path = .ok p)
    (hspace : p.Spaceless) {v : NodeId} :
    v ∈ (c.unlimited.run schedule s).positions.getD c.returnedPosition [] ↔ q.Yields s v := by
  obtain ⟨p', item, hp', hitem, hvalue, hreturned, -, hchain, -, -, -⟩ := compile_eq_ok hc
  cases hp.symm.trans hp'
  obtain ⟨matched, hmatched, -, hpaths⟩ := path_eq_ok.1 hp
  obtain ⟨returned, hreturn, hitems⟩ := returnedItem_eq_ok.1 hitem
  have hwell := (wellFormed_of_compile hc).unlimited
  -- the position that is returned is the first of the returned variable
  have hposition : ∀ r, p.Matches s r → r[c.returnedPosition]? = p.lookup r c.returned := by
    intro r hr
    have hagrees := (PathPattern.agrees_chain_iff hspace).2 hr.agrees
    obtain ⟨k, n, hn, hname⟩ := PathPattern.mem_nodeVariables.1 hreturned
    have hnode : c.chain.nodes[k]? = some (n.toChainNode k) :=
      hchain ▸ PathPattern.getElem?_chain_of_eq_some hn
    obtain ⟨first, n', hfirst, -, -⟩ := Chain.exists_head_positionsOf hnode
    rw [n.name_toChainNode hname] at hfirst
    rw [← PathPattern.lookup_chain hagrees hspace hreturned, ← hchain, Chain.lookup,
      ChainQuery.returnedPosition, hfirst]
    rfl
  rw [(c.unlimited.projects_run hs schedule hwell (.inl rfl)).mem]
  constructor
  · rintro ⟨r, hr, hv⟩
    obtain ⟨hmatches, hholds⟩ :=
      (satisfies_iff hc hp hspace).1 (ChainQuery.satisfies_unlimited.1 hr)
    exact ⟨matched, p, returned, item, c.returned, r, hmatched, hpaths, hreturn, hitems, hvalue,
      hmatches, hholds, hposition r hmatches ▸ hv⟩
  · rintro ⟨matched', p', returned', item', name, r, hmatched', hpaths', hreturn', hitems', hvalue',
      hr, hholds, hv⟩
    cases hmatched.symm.trans hmatched'
    cases hpaths.symm.trans hpaths'
    cases hreturn.symm.trans hreturn'
    cases hitems.symm.trans hitems'
    cases hvalue.symm.trans hvalue'
    refine ⟨r, ChainQuery.satisfies_unlimited.2 ((satisfies_iff hc hp hspace).2 ⟨hr, hholds⟩), ?_⟩
    rw [← hv]
    exact hposition r hr

lemma Yields.exists_node {s : Store} {q : Query} {v : NodeId} (h : q.Yields s v) :
    ∃ n, s.node? v = some n := by
  obtain ⟨_, p, _, _, name, r, -, -, -, -, -, hr, -, hv⟩ := h
  obtain ⟨k, -, hk⟩ := Option.bind_eq_some_iff.1 hv
  have hlt : k < p.nodes.length := hr.length_eq ▸ (List.getElem?_eq_some_iff.1 hk).1
  obtain ⟨n, hn, -⟩ := (hr.fits k p.nodes[k] v (List.getElem?_eq_getElem hlt) hk).labels
  exact ⟨n, hn⟩

/-- **The answer to a query is what the query asks for.** In every store that changes make of the
empty one, whatever the schedule, a query that is accepted and writes no variable with a space is
answered. The nodes of the answer are those that the query asks for, in ascending order and up to
its limit, under the heading of the returned variable or else under the variable itself. -/
theorem answer_yields {s : Store} (hs : s.Reachable) (schedule : Schedule) {q : Query}
    {c : ChainQuery} (hc : q.compile = .ok c)
    (hspace : ∀ matched ∈ q.matched, ∀ p ∈ matched.paths, p.Spaceless) :
    ∃ a ids, q.answer schedule s = .ok a
      ∧ a.ids = upTo q.limit ids ∧ NodeSet.Ascending ids ∧ (∀ v, v ∈ ids ↔ q.Yields s v)
      ∧ ∃ returned item name, q.returned = some returned ∧ returned.items = [item]
        ∧ item.value = .var name ∧ a.column = item.heading.getD name := by
  obtain ⟨p, item, hp, hitem, hvalue, -, -, -, -, hcolumn, hlimit⟩ := compile_eq_ok hc
  obtain ⟨matched, hmatched, -, hpaths⟩ := path_eq_ok.1 hp
  obtain ⟨returned, hreturned, hitems⟩ := returnedItem_eq_ok.1 hitem
  have hp' : p.Spaceless := hspace matched (by simp [hmatched]) p (by simp [hpaths])
  have hwell := wellFormed_of_compile hc
  have hrun := c.unlimited.projects_run hs.indexed schedule hwell.unlimited (.inl rfl)
  have hmem : ∀ v, v ∈ (c.unlimited.run schedule s).positions.getD c.returnedPosition []
      ↔ q.Yields s v :=
    fun v => mem_returned_iff hs.indexed schedule hc hp hp'
  refine ⟨c.answer schedule s, (c.unlimited.run schedule s).positions.getD c.returnedPosition [],
    ?_, ?_, ?_, hmem, returned, item, c.returned, hreturned, hitems, hvalue, hcolumn⟩
  · rw [answer, hc]
    rfl
  · have hids := ChainQuery.returnedIds_run (s := s) hwell schedule
    have hnode : ∀ id ∈ c.returnedIds (c.run schedule s), ∃ n, s.node? id = some n := by
      intro id hid
      rw [hids] at hid
      exact ((hmem id).1 ((upTo_sublist _ _).subset hid)).exists_node
    calc (c.answer schedule s).ids = c.returnedIds (c.run schedule s) :=
      hs.indexed.map_id_filterMap hnode
      _ = upTo q.limit _ := by rw [hids, hlimit]
  · rw [List.getD_eq_getElem?_getD]
    cases hset : (c.unlimited.run schedule s).positions[c.returnedPosition]? with
    | none => exact List.Pairwise.nil
    | some set => exact hrun.ascending set (List.mem_of_getElem? hset)

/-- A function that calls two others: the query for what is called yields both of them, although it
spells the group in another way, and cut off at one node it is answered with the first. -/
theorem answer_yields_of_call :
    let s := Store.run {} [.add { kind := .functionDeclaration },
      .add { kind := .functionDeclaration }, .add { kind := .functionDeclaration },
      .addEdge ⟨0⟩ ⟨"calls"⟩ ⟨2⟩ .outgoing, .addEdge ⟨0⟩ ⟨"calls"⟩ ⟨1⟩ .outgoing]
    let q := matching
      { start := {}
        segments := [⟨{ groups := [⟨"Calls"⟩], direction := .outgoing }, { name := some "g" }⟩] }
      none "g"
    (∃ c, q.compile = .ok c) ∧ (∀ matched ∈ q.matched, ∀ p ∈ matched.paths, p.Spaceless)
      ∧ (∃ a, q.answer {} s = .ok a ∧ a.ids = [⟨1⟩, ⟨2⟩] ∧ a.column = "g")
      ∧ (∀ v, v ∈ [(⟨1⟩ : NodeId), ⟨2⟩] ↔ q.Yields s v)
      ∧ ∃ a, (q.withLimit 1).answer {} s = .ok a ∧ a.ids = [⟨1⟩] := by
  intro s q
  have hspace : ∀ matched ∈ q.matched, ∀ p ∈ matched.paths, p.Spaceless := by
    intro matched hmatched p hp name hname
    obtain rfl := List.mem_singleton.1 hmatched
    obtain rfl := List.mem_singleton.1 hp
    obtain rfl : name = "g" := List.mem_singleton.1 hname
    decide
  obtain ⟨a, ids, ha, hids, hascending, hmem, returned, item, name, hreturned, hitems,
      hvalue, hcolumn⟩ :=
    answer_yields (q := q) (s := s) ⟨_, rfl⟩ {} rfl hspace
  have hfound : (q.answer {} s).map Answer.ids = .ok [⟨1⟩, ⟨2⟩] := by decide +kernel
  rw [ha, Except.map] at hfound
  have hboth : a.ids = [⟨1⟩, ⟨2⟩] := Except.ok.inj hfound
  have hall : ids = [⟨1⟩, ⟨2⟩] := hids.symm.trans hboth
  rw [hall] at hascending hmem
  have hheading : a.column = "g" := by
    cases hreturned
    cases hitems
    cases hvalue
    exact hcolumn
  -- which nodes a query asks for has nothing to do with its limit
  obtain ⟨b, found, hb, hfirst, hascending', hmem', -⟩ :=
    answer_yields (q := q.withLimit 1) (s := s) ⟨_, rfl⟩ {} rfl hspace
  have hsame : found = [⟨1⟩, ⟨2⟩] :=
    hascending'.ext hascending fun v => (hmem' v).trans (hmem v).symm
  rw [hsame] at hfirst
  exact ⟨⟨_, rfl⟩, hspace, ⟨a, ha, hboth, hheading⟩, hmem, b, hb, hfirst⟩

end Query
end CodeGraph
