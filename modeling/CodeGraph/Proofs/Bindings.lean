import CodeGraph.Proofs.Answering

/-!
The bindings of a query, and what a limit leaves of them.

* `Bindings.Tell`: bindings that tell of some variables, in their order, which nodes they are bound
  to. They are determined by what they tell (`Bindings.Tell.ext`), and two that tell of the same
  variables are compared set by set (`Bindings.Tell.forall₂`).
* `Matched.map_fst_bindings`, `Matched.exists_of_mem_bindings`: the variables that a match binds,
  and the positions that their nodes come from.
* `ChainQuery.Binds`: the nodes that a variable takes in the rows that satisfy a chain query.
* `Query.bindings_tell`: the bindings of an accepted query.
* `Query.answer_eq_upTo_bindings`: an answer is what its limit leaves of the bindings.
-/

namespace CodeGraph

/-! ### What bindings tell -/

namespace Bindings

/-- Bindings tell of some variables, in their order, which nodes they are bound to. -/
structure Tell (bound : Bindings) (names : List String)
    (binds : String → NodeId → Prop) : Prop where
  names_eq : bound.map Prod.fst = names
  ascending : ∀ b ∈ bound, NodeSet.Ascending b.2
  mem : ∀ b ∈ bound, ∀ id, id ∈ b.2 ↔ binds b.1 id

variable {bound bound' : Bindings} {names : List String} {binds binds' : String → NodeId → Prop}

/-- Bindings that tell of the same variables go together, set by set, in whatever way two sets do
that hold what is told of one variable. -/
lemma Tell.forall₂ {R : NodeSet → NodeSet → Prop} (h : bound.Tell names binds)
    (h' : bound'.Tell names binds')
    (hsets : ∀ name ∈ names, ∀ set set', NodeSet.Ascending set → NodeSet.Ascending set' →
      (∀ id, id ∈ set ↔ binds name id) → (∀ id, id ∈ set' ↔ binds' name id) → R set set') :
    List.Forall₂ (fun b b' => b.1 = b'.1 ∧ R b.2 b'.2) bound bound' := by
  have hnames : bound.map Prod.fst = bound'.map Prod.fst := h.names_eq.trans h'.names_eq.symm
  rw [List.forall₂_iff_get]
  refine ⟨by simpa using congrArg List.length hnames, fun i hi hi' => ?_⟩
  have hfst : bound[i].1 = bound'[i].1 := by
    have hget : (bound.map Prod.fst)[i]? = (bound'.map Prod.fst)[i]? := by rw [hnames]
    simpa [List.getElem?_eq_getElem hi, List.getElem?_eq_getElem hi'] using hget
  have hmem := List.getElem_mem hi
  have hmem' := List.getElem_mem hi'
  have hname : bound[i].1 ∈ names := h.names_eq ▸ List.mem_map_of_mem hmem
  refine ⟨hfst, hsets _ hname _ _ (h.ascending _ hmem) (h'.ascending _ hmem') (h.mem _ hmem) ?_⟩
  rw [hfst]
  exact h'.mem _ hmem'

/-- Bindings that tell the same are the same. -/
lemma Tell.ext (h : bound.Tell names binds) (h' : bound'.Tell names binds')
    (hbinds : ∀ name ∈ names, ∀ id, binds name id ↔ binds' name id) : bound = bound' := by
  have hsame := h.forall₂ (R := Eq) h' fun name hname set set' hset hset' hmem hmem' =>
    hset.ext hset' fun id => (hmem id).trans ((hbinds name hname id).trans (hmem' id).symm)
  exact List.forall₂_eq_eq_eq ▸ hsame.imp fun _ _ hb => Prod.ext hb.1 hb.2

/-- A variable that is told of has a set. -/
lemma Tell.exists_lookup (h : bound.Tell names binds) {name : String} (hname : name ∈ names) :
    ∃ set, bound.lookup name = some set ∧ NodeSet.Ascending set
      ∧ ∀ id, id ∈ set ↔ binds name id := by
  cases hlookup : bound.lookup name with
  | none =>
      rw [← h.names_eq] at hname
      obtain ⟨b, hb, rfl⟩ := List.mem_map.1 hname
      simpa using List.lookup_eq_none_iff.1 hlookup b hb
  | some set =>
      obtain ⟨before, after, heq, -⟩ := List.lookup_eq_some_iff.1 hlookup
      have hmem : (name, set) ∈ bound := by simp [heq]
      exact ⟨set, rfl, h.ascending _ hmem, h.mem _ hmem⟩

/-- Bindings after a position of a chain: its nodes are noted if its variable was written and has
none yet. -/
def note (bound : Bindings) (p : ChainNode × NodeSet) : Bindings :=
  if p.1.anonymous || bound.any (fun b => b.1 == p.1.name) then bound
    else bound ++ [(p.1.name, p.2)]

lemma note_of_anonymous {p : ChainNode × NodeSet} (h : p.1.anonymous = true) :
    bound.note p = bound := by
  simp [note, h]

lemma map_fst_note {p : ChainNode × NodeSet} (h : p.1.anonymous = false) :
    (bound.note p).map Prod.fst
      = if p.1.name ∈ bound.map Prod.fst then bound.map Prod.fst
        else bound.map Prod.fst ++ [p.1.name] := by
  have hany : bound.any (fun b => b.1 == p.1.name) ↔ p.1.name ∈ bound.map Prod.fst := by simp
  by_cases hmem : p.1.name ∈ bound.map Prod.fst
  · rw [note, h, Bool.false_or, if_pos (hany.2 hmem), if_pos hmem]
  · rw [note, h, Bool.false_or, if_neg fun hb => hmem (hany.1 hb), if_neg hmem, List.map_append]
    rfl

lemma mem_note {b : String × NodeSet} {p : ChainNode × NodeSet} (hb : b ∈ bound.note p) :
    b ∈ bound ∨ b = (p.1.name, p.2) := by
  rw [note] at hb
  split at hb
  · exact .inl hb
  · simpa using hb

end Bindings

/-! ### The bindings of a match -/

namespace Matched

variable {c : Chain} {m : Matched}

lemma bindings_eq (m : Matched) (c : Chain) :
    m.bindings c = (c.nodes.zip m.positions).foldl Bindings.note [] := rfl

/-- A match binds the variables that are written, each once and in the order of their first
positions. -/
lemma map_fst_bindings (h : m.positions.length = c.nodes.length) :
    (m.bindings c).map Prod.fst
      = ((c.nodes.filter (fun n => !n.anonymous)).map ChainNode.name).eraseDups := by
  have key : ∀ ps : List (ChainNode × NodeSet), (ps.foldl Bindings.note []).map Prod.fst
      = (((ps.map Prod.fst).filter (fun n => !n.anonymous)).map ChainNode.name).eraseDups := by
    intro ps
    -- from the last position back: it is noted after all others, and only if its variable is new
    induction ps using List.reverseRecOn with
    | nil => rfl
    | append_singleton ps p ih =>
        rw [List.foldl_concat, List.map_append, List.filter_append, List.map_append,
          List.map_singleton]
        cases hanonymous : p.1.anonymous with
        | true => simpa [Bindings.note_of_anonymous hanonymous, hanonymous] using ih
        | false =>
            rw [Bindings.map_fst_note hanonymous, ih, List.filter_singleton, hanonymous,
              Bool.not_false, cond_true, List.map_singleton, eraseDups_concat]
            simp only [List.mem_eraseDups]
  rw [bindings_eq, key, List.map_fst_zip (by omega)]

/-- What a variable is bound to is the set of a position at which it stands. -/
lemma exists_of_mem_bindings {b : String × NodeSet} (hb : b ∈ m.bindings c) :
    ∃ (k : Nat) (n : ChainNode), c.nodes[k]? = some n ∧ n.name = b.1
      ∧ m.positions[k]? = some b.2 := by
  have key : ∀ ps : List (ChainNode × NodeSet), b ∈ ps.foldl Bindings.note [] →
      ∃ p ∈ ps, b = (p.1.name, p.2) := by
    intro ps
    induction ps using List.reverseRecOn with
    | nil => intro hb; cases hb
    | append_singleton ps p ih =>
        intro hb
        rw [List.foldl_concat] at hb
        rcases Bindings.mem_note hb with hb | hb
        · obtain ⟨p', hp', hb'⟩ := ih hb
          exact ⟨p', List.mem_append_left _ hp', hb'⟩
        · exact ⟨p, by simp, hb⟩
  obtain ⟨p, hp, rfl⟩ := key _ hb
  obtain ⟨k, hk⟩ := List.mem_iff_getElem?.1 hp
  obtain ⟨hn, hset⟩ := List.getElem?_zip_eq_some.1 hk
  exact ⟨k, p.1, hn, rfl, hset⟩

end Matched

/-! ### The bindings of a chain query -/

namespace ChainQuery

variable {s : Store} {q : ChainQuery}

/-- A variable of a chain query is bound to a node if it takes the node in a row that satisfies the
chain query. -/
def Binds (s : Store) (q : ChainQuery) (name : String) (id : NodeId) : Prop :=
  ∃ r, q.Satisfies s r ∧ q.chain.lookup r name = some id

/-- The nodes that a variable is bound to are those of the satisfying rows at any of its positions.
-/
lemma binds_iff {k : Nat} {n : ChainNode} (hn : q.chain.nodes[k]? = some n) {id : NodeId} :
    q.Binds s n.name id ↔ ∃ r, q.Satisfies s r ∧ r[k]? = some id :=
  exists_congr fun _ => and_congr_right fun hr => by rw [Chain.lookup_eq hr.fits.agrees hn]

lemma Binds.exists_node {name : String} {id : NodeId} (h : q.Binds s name id) :
    ∃ n, s.node? id = some n := by
  obtain ⟨r, hr, hid⟩ := h
  obtain ⟨k, -, hk⟩ := Option.bind_eq_some_iff.1 hid
  have hlt : k < q.chain.nodes.length := hr.fits.length_eq ▸ (List.getElem?_eq_some_iff.1 hk).1
  obtain ⟨n, hn, -⟩ := hr.fits.labels k _ id (List.getElem?_eq_getElem hlt) hk
  exact ⟨n, hn⟩

/-- A limit has no part in what a variable is bound to. -/
lemma binds_limited {limit : Option Nat} {name : String} {id : NodeId} :
    { q with limit := limit }.Binds s name id ↔ q.Binds s name id :=
  exists_congr fun _ => and_congr_left fun _ => ⟨fun h => ⟨h.fits, h.holds⟩,
    fun h => ⟨h.fits, h.holds⟩⟩

lemma binds_unlimited {name : String} {id : NodeId} :
    q.unlimited.Binds s name id ↔ q.Binds s name id :=
  binds_limited

/-- **The bindings of a chain query** tell of each written variable which nodes it is bound to. -/
lemma tell_bindings_run (hs : s.Indexed) (schedule : Schedule) (hq : q.WellFormed) :
    ((q.unlimited.run schedule s).bindings q.chain).Tell
      ((q.chain.nodes.filter (fun n => !n.anonymous)).map ChainNode.name).eraseDups
      (q.Binds s) := by
  have hrun := q.unlimited.projects_run hs schedule hq.unlimited (.inl rfl)
  refine ⟨Matched.map_fst_bindings hrun.length_eq, fun b hb => ?_, fun b hb id => ?_⟩
  · obtain ⟨k, -, -, -, hset⟩ := Matched.exists_of_mem_bindings hb
    exact hrun.ascending _ (List.mem_of_getElem? hset)
  · obtain ⟨k, n, hn, hname, hset⟩ := Matched.exists_of_mem_bindings hb
    have hmem := hrun.mem k id
    rw [List.getD_eq_getElem?_getD, hset, Option.getD_some] at hmem
    rw [hmem, ← hname, ← binds_unlimited]
    exact (binds_iff (q := q.unlimited) hn).symm

/-- The position that is returned holds what the returned variable is bound to. -/
lemma mem_returned (hs : s.Indexed) (schedule : Schedule) (hq : q.WellFormed)
    (hreturned : ∃ n ∈ q.chain.nodes, n.name = q.returned) {id : NodeId} :
    id ∈ (q.unlimited.run schedule s).positions.getD q.returnedPosition []
      ↔ q.Binds s q.returned id := by
  obtain ⟨n, hn, hname⟩ := hreturned
  obtain ⟨k, hk⟩ := List.mem_iff_getElem?.1 hn
  obtain ⟨first, n', hfirst, hn', hname'⟩ := Chain.exists_head_positionsOf hk
  have hposition : q.returnedPosition = first := by
    rw [returnedPosition, ← hname, hfirst]
    rfl
  rw [hposition, (q.unlimited.projects_run hs schedule hq.unlimited (.inl rfl)).mem,
    ← binds_unlimited, ← hname, ← hname']
  exact (binds_iff (q := q.unlimited) hn').symm

lemma ascending_returned (hs : s.Indexed) (schedule : Schedule) (hq : q.WellFormed) :
    NodeSet.Ascending ((q.unlimited.run schedule s).positions.getD q.returnedPosition []) := by
  have hrun := q.unlimited.projects_run hs schedule hq.unlimited (.inl rfl)
  rw [List.getD_eq_getElem?_getD]
  cases hset : (q.unlimited.run schedule s).positions[q.returnedPosition]? with
  | none => exact List.Pairwise.nil
  | some set => exact hrun.ascending set (List.mem_of_getElem? hset)

/-- **The answer to a chain query** is what its limit leaves of the nodes of the returned variable.
-/
lemma ids_answer (hs : s.Indexed) (schedule : Schedule) (hq : q.WellFormed)
    (hreturned : ∃ n ∈ q.chain.nodes, n.name = q.returned) {set : NodeSet}
    (hset : NodeSet.Ascending set)
    (hmem : ∀ id, id ∈ set ↔ q.Binds s q.returned id) :
    (q.answer schedule s).ids = upTo q.limit set := by
  -- both sets are in ascending order, so it is enough that they hold the same nodes
  have hfound : (q.unlimited.run schedule s).positions.getD q.returnedPosition [] = set :=
    (ascending_returned hs schedule hq).ext hset fun id =>
      (mem_returned hs schedule hq hreturned).trans (hmem id).symm
  have hids : q.returnedIds (q.run schedule s) = upTo q.limit set := by
    rw [returnedIds_run hq, hfound]
  have hnode : ∀ id ∈ q.returnedIds (q.run schedule s), ∃ n, s.node? id = some n := by
    intro id hid
    rw [hids] at hid
    exact ((hmem id).1 ((upTo_sublist _ _).subset hid)).exists_node
  calc (q.answer schedule s).ids = q.returnedIds (q.run schedule s) := hs.map_id_filterMap hnode
    _ = upTo q.limit set := hids

end ChainQuery

/-! ### The bindings of a query -/

/-- The positions of a chain that are not anonymous have the variables that are written in its path.
-/
lemma PathPattern.written_chain (p : PathPattern) :
    (p.chain.nodes.filter (fun n => !n.anonymous)).map ChainNode.name = p.nodeVariables := by
  have key : ∀ (nodes : List NodePattern) (offset : Nat),
      ((chainNodesFrom offset nodes).filter (fun n => !n.anonymous)).map ChainNode.name
        = nodes.filterMap NodePattern.name := by
    intro nodes
    induction nodes with
    | nil => intro _; rfl
    | cons n rest ih =>
        intro offset
        rw [chainNodesFrom, List.filter_cons, List.filterMap_cons]
        cases hname : n.name with
        | none => simpa [NodePattern.toChainNode, hname] using ih (offset + 1)
        | some name =>
            simpa [NodePattern.toChainNode, NodePattern.variableAt, hname] using ih (offset + 1)
  exact key p.nodes 0

namespace Query

variable {s : Store} {q : Query} {c : ChainQuery} {p : PathPattern}

/-- **The bindings of an accepted query** tell of each variable of its path, at its first
appearance, which nodes it is bound to. -/
lemma bindings_tell (hs : s.Indexed) (schedule : Schedule) (hc : q.compile = .ok c)
    (hp : q.path = .ok p) :
    ∃ bound, q.bindings schedule s = .ok bound
      ∧ bound.Tell p.nodeVariables.eraseDups (c.Binds s) := by
  obtain ⟨p', item, hp', -, -, -, -, hchain, -⟩ := compile_eq_ok hc
  cases hp.symm.trans hp'
  have htell := c.tell_bindings_run hs schedule (wellFormed_of_compile hc)
  rw [hchain, PathPattern.written_chain] at htell
  refine ⟨_, ?_, htell⟩
  rw [bindings, hc, ← hchain]
  rfl

/-- The returned variable of an accepted query stands in its chain. -/
lemma returned_mem_nodes (hc : q.compile = .ok c) : ∃ n ∈ c.chain.nodes, n.name = c.returned := by
  obtain ⟨p, item, -, -, -, hreturned, -, hchain, -⟩ := compile_eq_ok hc
  obtain ⟨k, n, hn, hname⟩ := PathPattern.mem_nodeVariables.1 hreturned
  exact ⟨n.toChainNode k, List.mem_of_getElem? (hchain ▸ PathPattern.getElem?_chain_of_eq_some hn),
    n.name_toChainNode hname k⟩

/-- A query matches one path and returns one variable. -/
def Asks (q : Query) (p : PathPattern) (name : String) : Prop :=
  ∃ matched returned item, q.matched = [matched] ∧ matched.paths = [p]
    ∧ q.returned = some returned ∧ returned.items = [item] ∧ item.value = .var name

lemma asks_of_compile (hc : q.compile = .ok c) (hp : q.path = .ok p) : q.Asks p c.returned := by
  obtain ⟨p', item, hp', hitem, hvalue, -⟩ := compile_eq_ok hc
  cases hp.symm.trans hp'
  obtain ⟨matched, hmatched, -, hpaths⟩ := path_eq_ok.1 hp
  obtain ⟨returned, hreturned, hitems⟩ := returnedItem_eq_ok.1 hitem
  exact ⟨matched, returned, item, hmatched, hpaths, hreturned, hitems, hvalue⟩

/-! ### Limits -/

/-- The answer under a limit, from the set that is bound to the returned variable. -/
lemma answer_limited (hs : s.Indexed) (schedule : Schedule) (hc : q.compile = .ok c) {ids : NodeSet}
    (hascending : NodeSet.Ascending ids) (hmem : ∀ id, id ∈ ids ↔ c.Binds s c.returned id)
    (limit : Option Nat) :
    ∃ a, { q with limit := limit }.answer schedule s = .ok a ∧ a.ids = upTo limit ids := by
  have hlimited := compile_limited hc limit
  refine ⟨{ c with limit := limit }.answer schedule s, ?_, ?_⟩
  · rw [answer, hlimited]
    rfl
  · exact ChainQuery.ids_answer hs schedule (wellFormed_of_compile hlimited)
      (returned_mem_nodes hlimited)
      hascending fun id => (hmem id).trans ChainQuery.binds_limited.symm

/-- **A limit leaves the first nodes of the bindings.** In every store that changes make of the
empty one, whatever the schedule, the bindings of an accepted query tell of each variable of its
path, once and in the order of first appearance, and every set is in ascending order. Under any
limit the bindings are the same, and the answer is what the limit leaves of the set of the returned
variable. So a greater limit only extends the answer, and one that reaches the size of the set
changes nothing. -/
theorem answer_eq_upTo_bindings {s : Store} (hs : s.Reachable) (schedule : Schedule) {q : Query}
    {c : ChainQuery} (hc : q.compile = .ok c) :
    ∃ p name bound ids, q.Asks p name
      ∧ bound.map Prod.fst = p.nodeVariables.eraseDups ∧ (∀ b ∈ bound, NodeSet.Ascending b.2)
      ∧ bound.lookup name = some ids
      ∧ (∀ limit, { q with limit := limit }.bindings schedule s = .ok bound)
      ∧ (∀ limit, ∃ a, { q with limit := limit }.answer schedule s = .ok a ∧ a.ids = upTo limit ids)
      ∧ (∀ k l a b, k ≤ l → (q.withLimit k).answer schedule s = .ok a →
          (q.withLimit l).answer schedule s = .ok b → a.ids <+: b.ids)
      ∧ ∀ k a, ids.length ≤ k → (q.withLimit k).answer schedule s = .ok a → a.ids = ids := by
  obtain ⟨p, item, hp, -, -, hreturned, -⟩ := compile_eq_ok hc
  obtain ⟨bound, hbound, htell⟩ := bindings_tell hs.indexed schedule hc hp
  obtain ⟨ids, hlookup, hascending, hmem⟩ := htell.exists_lookup (List.mem_eraseDups.2 hreturned)
  have hanswer := answer_limited hs.indexed schedule hc hascending hmem
  have htake : ∀ k a, (q.withLimit k).answer schedule s = .ok a → a.ids = ids.take k := by
    intro k a ha
    obtain ⟨a', ha', hids⟩ := hanswer (some k)
    cases ha.symm.trans ha'
    exact hids
  refine ⟨p, c.returned, bound, ids, asks_of_compile hc hp, htell.names_eq, htell.ascending,
    hlookup, fun limit => ?_, hanswer, fun k l a b hkl ha hb => ?_, fun k a hk ha => ?_⟩
  · rw [← hbound, bindings, bindings, compile_limited hc limit, hc]
    rfl
  · rw [htake k a ha, htake l b hb]
    exact List.take_prefix_take_left hkl
  · rw [htake k a ha, List.take_of_length_le hk]

/-- A function that calls two others: cut off at one node, the query for what is called finds the
first. -/
theorem answer_eq_upTo_bindings_of_calls :
    let s := Store.run {} [.add { kind := .functionDeclaration },
      .add { kind := .functionDeclaration }, .add { kind := .functionDeclaration },
      .addEdge ⟨0⟩ ⟨"calls"⟩ ⟨2⟩ .outgoing, .addEdge ⟨0⟩ ⟨"calls"⟩ ⟨1⟩ .outgoing]
    let q := matching
      { start := {}, segments := [⟨{ direction := .outgoing }, { name := some "g" }⟩] } none "g"
    (∃ c, q.compile = .ok c) ∧ q.bindings {} s = .ok [("g", [⟨1⟩, ⟨2⟩])]
      ∧ ∃ a, (q.withLimit 1).answer {} s = .ok a ∧ a.ids = [⟨1⟩] := by
  intro s q
  have hbindings : q.bindings {} s = .ok [("g", [⟨1⟩, ⟨2⟩])] := by decide +kernel
  obtain ⟨p, name, bound, ids, hasks, -, -, hlookup, hbound, hanswer, -⟩ :=
    answer_eq_upTo_bindings (q := q) (s := s) ⟨_, rfl⟩ {} rfl
  obtain ⟨a, ha, hids⟩ := hanswer (some 1)
  obtain rfl : name = "g" := by
    obtain ⟨_, _, _, -, -, hreturned, hitems, hvalue⟩ := hasks
    cases hreturned
    cases hitems
    cases hvalue
    rfl
  obtain rfl : [("g", [⟨1⟩, ⟨2⟩])] = bound := Except.ok.inj (hbindings.symm.trans (hbound none))
  obtain rfl : [⟨1⟩, ⟨2⟩] = ids := Option.some.inj hlookup
  exact ⟨⟨_, rfl⟩, hbindings, a, ha, hids⟩

end Query
end CodeGraph
