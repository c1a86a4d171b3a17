import CodeGraph.Proofs.Bindings

/-!
What the answer to a query does not depend on.

* `fill_eq_fill`, `ChainQuery.run_eq_of_schedules`: schedules.
* `Matched.run_passingFrom`: whether the rows that pass are gathered at once or chunk by chunk.
* `Node.Alike`, `Store.Alike`: stores that differ only in what no query can ask for: the order,
  number and numbering of edges, the case of their groups, and properties under keys that are not
  mentioned.
* `Store.mem_farEnds_iff_ends`, `Store.Alike.holds_eq`, `Store.Alike.fits`: the three ways in which
  a row depends on a store.
* `Query.keys`, `Query.satisfies_of_alike`: a row that satisfies a query satisfies it in every store
  that looks alike under the keys that the query mentions.
* `Query.answer_eq_of_alike`: answers and bindings.
-/

namespace CodeGraph

/-! ### Schedules -/

section Schedules

variable (first second : Schedule) {s : Store} {c : Chain}

lemma scan_eq_scan (n : ChainNode) (filter : Option Expr) (limit : Option Nat) :
    scan first s n filter limit = scan second s n filter limit := by
  rw [scan_eq, scan_eq]

lemma expand_eq_expand (previous : List NodeId) (step : ChainStep) (next : ChainNode)
    (filter : Option Expr) :
    expand first s previous step next filter = expand second s previous step next filter := by
  rw [expand_eq, expand_eq]

lemma fillFrom_eq_fillFrom (filter : Option NodeFilter) (candidates : NodeSet)
    (steps : List (ChainStep × ChainNode)) :
    fillFrom first s filter candidates steps = fillFrom second s filter candidates steps := by
  induction steps generalizing candidates with
  | nil => rfl
  | cons head rest ih =>
      obtain ⟨step, next⟩ := head
      rw [fillFrom, fillFrom, expand_eq_expand first second, ih]

/-- Positions are filled alike under every schedule. -/
lemma fill_eq_fill (filter : Option NodeFilter) (limit : Option Nat) :
    fill first s c filter limit = fill second s c filter limit := by
  rw [fill, fill]
  cases c.nodes with
  | nil => rfl
  | cons n rest =>
      simp only [scan_eq_scan first second, fillFrom_eq_fillFrom first second]

/-- Rows are asked alike under every schedule. -/
lemma Matched.filterRows_eq_filterRows (m : Matched) (predicate : Option Expr) :
    m.filterRows first s c predicate = m.filterRows second s c predicate := by
  rw [filterRows_eq, filterRows_eq]

end Schedules

/-- **Schedules are unobservable.** Under any two schedules every chain query, of whatever shape and
limit, has the same match, candidate by candidate and pair by pair, and so the same answer; and
every query has the same answer and the same bindings, or is refused for the same reason. -/
theorem ChainQuery.run_eq_of_schedules (first second : Schedule) (s : Store) :
    (∀ c : ChainQuery, c.run first s = c.run second s ∧ c.answer first s = c.answer second s)
      ∧ ∀ q : Query, q.answer first s = q.answer second s
      ∧ q.bindings first s = q.bindings second s := by
  have hrun : ∀ c : ChainQuery, c.run first s = c.run second s := by
    intro c
    simp only [run, fill_eq_fill first second, Matched.filterRows_eq_filterRows first second]
  have hanswer : ∀ c : ChainQuery, c.answer first s = c.answer second s := by
    intro c
    rw [answer, answer, hrun c]
  refine ⟨fun c => ⟨hrun c, hanswer c⟩, fun q => ⟨?_, ?_⟩⟩
  · simp only [Query.answer, hanswer]
  · simp only [Query.bindings, hrun]

/-! ### Survivors, chunk by chunk -/

namespace Matched

variable {s : Store} {c : Chain} {m : Matched} {predicate : Option Expr}

/-- The rows from some nodes that pass a predicate. -/
def passingFrom (s : Store) (c : Chain) (predicate : Option Expr) (m : Matched) (starts : NodeSet) :
    List Row :=
  (starts.flatMap (rowsThrough c m)).filter
    (fun r => predicate.all (fun e => e.holds s (rowLookup c.nodes r)))

/-- The rows that pass, chunk by chunk of the nodes that they start at. -/
lemma run_passingFrom (schedule : Schedule) :
    schedule.run (passingFrom s c predicate m) (m.positions.headD [])
      = passingRows s c predicate m := by
  rw [schedule.run_of_append]
  · rfl
  · rfl
  · intro xs ys
    rw [passingFrom, List.flatMap_append, List.filter_append]
    rfl

end Matched

/-! ### Stores that look alike -/

/-- The group, in small letters, and the far end of each edge of a node in a direction. -/
def Node.ends (n : Node) (d : Direction) : List (String × NodeId) :=
  (n.edges d).all.map (fun e => (e.group.folded, e.farEnd d))

/-- Two nodes look alike to what reads the properties under some keys: they have one kind, the same
properties under these keys, where none is as good as null, and in each direction edges of the same
groups to the same nodes. -/
structure Node.Alike (keys : List String) (n n' : Node) : Prop where
  kind_eq : n.kind = n'.kind
  property_eq : ∀ key ∈ keys, (n.get? key).getD .null = (n'.get? key).getD .null
  mem_ends : ∀ d x, x ∈ n.ends d ↔ x ∈ n'.ends d

/-- Two stores look alike if they have as many nodes, and nodes of one name look alike. -/
structure Store.Alike (keys : List String) (s t : Store) : Prop where
  size_eq : s.size = t.size
  node : ∀ id n n', s.node? id = some n → t.node? id = some n' → n.Alike keys n'

lemma Node.Alike.symm {keys : List String} {n n' : Node} (h : n.Alike keys n') : n'.Alike keys n :=
  ⟨h.kind_eq.symm, fun key hkey => (h.property_eq key hkey).symm, fun d x => (h.mem_ends d x).symm⟩

/-- Where edges lead is told by the groups in small letters and the far ends. -/
lemma Store.mem_farEnds_iff_ends {s : Store} {a b : NodeId} {groups : List Group}
    {directions : List Direction} :
    b ∈ s.farEnds a groups directions
      ↔ ∃ n d group, s.node? a = some n ∧ d ∈ directions ∧ (group, b) ∈ n.ends d
        ∧ (groups = [] ∨ ∃ g ∈ groups, group = g.folded) := by
  simp only [mem_farEnds, Node.ends, List.mem_map, Group.alike, beq_iff_eq]
  constructor
  · rintro ⟨n, d, e, hn, hd, he, rfl, hgroup⟩
    exact ⟨n, d, e.group.folded, hn, hd, ⟨e, he, rfl⟩, hgroup⟩
  · rintro ⟨n, d, group, hn, hd, ⟨e, he, heq⟩, hgroup⟩
    obtain ⟨rfl, rfl⟩ := Prod.mk.inj heq
    exact ⟨n, d, e, hn, hd, he, rfl, hgroup⟩

namespace Store.Alike

variable {keys : List String} {s t : Store}

lemma symm (h : s.Alike keys t) : t.Alike keys s :=
  ⟨h.size_eq.symm, fun id n n' hn hn' => (h.node id n' n hn' hn).symm⟩

/-- A node of a store has one like it in a store like it. -/
lemma exists_node (h : s.Alike keys t) {id : NodeId} {n : Node} (hn : s.node? id = some n) :
    ∃ n', t.node? id = some n' ∧ n.Alike keys n' := by
  have hid : t.hasNode id := by
    rw [hasNode_iff, ← h.size_eq, ← hasNode_iff, hasNode_iff_node?]
    exact ⟨n, hn⟩
  obtain ⟨n', hn'⟩ := (t.hasNode_iff_node? id).1 hid
  exact ⟨n', hn', h.node id n n' hn hn'⟩

/-- A property that is read has the same value, and none the value of null. -/
lemma propertyOf_eq (h : s.Alike keys t) {key : String} (hkey : key ∈ keys) (id : NodeId) :
    (Value.node id).propertyOf s key = (Value.node id).propertyOf t key := by
  rw [Value.propertyOf_node, Value.propertyOf_node, property?, property?]
  cases hn : s.node? id with
  | some n =>
      obtain ⟨n', hn', halike⟩ := h.exists_node hn
      rw [hn']
      exact congrArg Value.ofProperty (halike.property_eq key hkey)
  | none =>
      cases hn' : t.node? id with
      | none => rfl
      | some n' =>
          obtain ⟨n, hsome, -⟩ := h.symm.exists_node hn'
          cases hn.symm.trans hsome

/-- Expressions over the keys have the same truth. -/
lemma holds_eq (h : s.Alike keys t) {e : Expr} (he : e.keys ⊆ keys) (f : Lookup) :
    e.holds s f = e.holds t f :=
  Expr.holds_congr_store fun _ _ id _ _ hkey => h.propertyOf_eq (he hkey) id

/-- A row that fits a chain in a store fits it in any store like it. -/
lemma fits (h : s.Alike keys t) {c : Chain} {r : Row} (hr : c.Fits s r) : c.Fits t r := by
  refine ⟨hr.length_eq, fun k n id hn hid => ?_, fun k step a b hstep ha hb => ?_, hr.agrees⟩
  · obtain ⟨node, hnode, hlabels⟩ := hr.labels k n id hn hid
    obtain ⟨node', hnode', halike⟩ := h.exists_node hnode
    exact ⟨node', hnode', Node.hasLabels_congr halike.kind_eq ▸ hlabels⟩
  · obtain ⟨n, d, group, hn, hd, hends, hgroup⟩ :=
      mem_farEnds_iff_ends.1 (hr.joined k step a b hstep ha hb)
    obtain ⟨n', hn', halike⟩ := h.exists_node hn
    exact mem_farEnds_iff_ends.2 ⟨n', d, group, hn', hd, (halike.mem_ends d _).1 hends, hgroup⟩

end Store.Alike

/-! ### Queries that cannot tell stores apart -/

/-- The keys of the property map of a node. -/
def NodePattern.keys (n : NodePattern) : List String :=
  n.properties.toList.flatMap (fun m => m.entries.map Prod.fst)

namespace Query

/-- The keys that a query mentions, in the property maps of its nodes and in its filter. -/
def keys (q : Query) : List String :=
  q.matched.flatMap (fun m => m.paths.flatMap (fun p => p.nodes.flatMap NodePattern.keys))
    ++ q.filter.toList.flatMap Expr.keys

variable {s t : Store} {q : Query} {c : ChainQuery} {p : PathPattern}

/-- The parts of the predicate of a query read properties under its keys only. -/
lemma keys_subset (hp : q.path = .ok p) {e : Expr}
    (he : e ∈ p.inlinePredicates ++ q.filter.toList) :
    e.keys ⊆ q.keys := by
  obtain ⟨clause, hclause, -, hpaths⟩ := path_eq_ok.1 hp
  intro key hkey
  rcases List.mem_append.1 he with hinline | hfilter
  · obtain ⟨k, n, hn, hcomparison⟩ := PathPattern.mem_inlinePredicates.1 hinline
    obtain ⟨m, hm, entry, hentry, rfl⟩ := NodePattern.mem_comparisons.1 hcomparison
    obtain rfl : key = entry.1 := by simpa [Expr.equals, Expr.keys] using hkey
    have hnode : entry.1 ∈ n.keys := by
      rw [NodePattern.keys, List.mem_flatMap]
      exact ⟨m, by simpa using hm, List.mem_map_of_mem hentry⟩
    refine List.mem_append_left _ (List.mem_flatMap.2 ⟨clause, by simp [hclause], ?_⟩)
    exact List.mem_flatMap.2 ⟨p, by simp [hpaths],
      List.mem_flatMap.2 ⟨n, List.mem_of_getElem? hn, hnode⟩⟩
  · exact List.mem_append_right _ (List.mem_flatMap.2 ⟨e, hfilter, hkey⟩)

/-- A row that satisfies the chain query of a query in a store satisfies it in any store like it. -/
lemma satisfies_of_alike (hc : q.compile = .ok c) (h : s.Alike q.keys t) {r : Row}
    (hr : c.Satisfies s r) :
    c.Satisfies t r := by
  obtain ⟨p, item, hp, -, -, -, -, hchain, hpredicate, -⟩ := compile_eq_ok hc
  refine ⟨h.fits hr.fits, ?_⟩
  have hparts := hr.holds
  rw [hpredicate, holds_conjunction] at hparts ⊢
  intro e he
  rw [← h.holds_eq (keys_subset hp he)]
  exact hparts e he

lemma binds_iff_of_alike (hc : q.compile = .ok c) (h : s.Alike q.keys t) {name : String}
    {id : NodeId} :
    c.Binds s name id ↔ c.Binds t name id :=
  exists_congr fun _ => and_congr_left fun _ => ⟨satisfies_of_alike hc h,
    satisfies_of_alike hc h.symm⟩

/-- **Answers depend on the graph alone.** Take two stores that changes make of the empty one and
that look alike under the keys that an accepted query mentions: they have as many nodes, and nodes
of one name have the same kind, the same properties under these keys and, in each direction, edges
of the same groups, whatever the case of their letters, to the same nodes. Whatever the schedules,
the query has in both the same answer and the same bindings. -/
theorem answer_eq_of_alike (hs : s.Reachable) (ht : t.Reachable) (hc : q.compile = .ok c)
    (h : s.Alike q.keys t) (first second : Schedule) :
    ∃ a b bound, q.answer first s = .ok a ∧ q.answer second t = .ok b ∧ a.ids = b.ids
      ∧ q.bindings first s = .ok bound ∧ q.bindings second t = .ok bound := by
  obtain ⟨p, item, hp, -, -, hreturned, -⟩ := compile_eq_ok hc
  obtain ⟨bound, hbound, htell⟩ := bindings_tell hs.indexed first hc hp
  obtain ⟨bound', hbound', htell'⟩ := bindings_tell ht.indexed second hc hp
  obtain rfl : bound = bound' := htell.ext htell' fun name _ id => binds_iff_of_alike hc h
  obtain ⟨ids, -, hascending, hmem⟩ := htell.exists_lookup (List.mem_eraseDups.2 hreturned)
  obtain ⟨a, ha, hids⟩ := answer_limited hs.indexed first hc hascending hmem q.limit
  obtain ⟨b, hb, hids'⟩ := answer_limited ht.indexed second hc hascending
    (fun id => (hmem id).trans (binds_iff_of_alike hc h)) q.limit
  exact ⟨a, b, bound, ha, hb, hids.trans hids'.symm, hbound, hbound'⟩

/-- A function that calls itself, and the same with the call recorded twice, once from the side of
what is called and in capitals, with a null where nothing was, and with a property that is not asked
for. -/
theorem answer_eq_of_alike_of_calls :
    let s := Store.run {} [.add (.functionDeclaration "loop" "loop()"),
      .addEdge ⟨0⟩ ⟨"calls"⟩ ⟨0⟩ .outgoing]
    let t := Store.run {} [.add (.functionDeclaration "loop" "loop()"),
      .addEdge ⟨0⟩ ⟨"CALLS"⟩ ⟨0⟩ .incoming, .addEdge ⟨0⟩ ⟨"calls"⟩ ⟨0⟩ .outgoing,
      .setProperty ⟨0⟩ "note" .null, .setProperty ⟨0⟩ "line" (.ofInt 7)]
    let q := matching
      { start := { name := some "f" }
        segments := [⟨{ groups := [⟨"Calls"⟩], direction := .outgoing }, { name := some "g" }⟩] }
      (some (.unary .isNull (.property "f" "note"))) "g"
    let chunked : Schedule := { strategy := .parallel, chunkSize := 0 }
    (∃ c, q.compile = .ok c) ∧ s.Alike q.keys t
      ∧ (∃ a b, q.answer {} s = .ok a ∧ q.answer chunked t = .ok b ∧ a.ids = [⟨0⟩] ∧ b.ids = [⟨0⟩])
      ∧ q.bindings {} s = .ok [("f", [⟨0⟩]), ("g", [⟨0⟩])]
      ∧ q.bindings chunked t = .ok [("f", [⟨0⟩]), ("g", [⟨0⟩])] := by
  intro s t q chunked
  have hs : (s.node? ⟨0⟩).map (fun n => (n.ends .outgoing, n.ends .incoming))
      = some ([("calls", ⟨0⟩)], [("calls", ⟨0⟩)]) := by decide +kernel
  have ht : (t.node? ⟨0⟩).map (fun n => (n.ends .outgoing, n.ends .incoming))
      = some ([("calls", ⟨0⟩), ("calls", ⟨0⟩)], [("calls", ⟨0⟩), ("calls", ⟨0⟩)]) := by
        decide +kernel
  have hkind : (s.node? ⟨0⟩).map Node.kind = (t.node? ⟨0⟩).map Node.kind := by decide +kernel
  have hnote : (s.node? ⟨0⟩).map (fun n => (n.get? "note").getD .null)
      = (t.node? ⟨0⟩).map (fun n => (n.get? "note").getD .null) := by decide +kernel
  have halike : s.Alike q.keys t := by
    refine ⟨by decide +kernel, fun id n n' hn hn' => ?_⟩
    obtain rfl : id = ⟨0⟩ := by
      have hid : id.index < 1 := (s.hasNode_iff id).1 ((s.hasNode_iff_node? id).2 ⟨n, hn⟩)
      exact congrArg NodeId.mk (Nat.lt_one_iff.1 hid)
    simp only [hn, hn', Option.map_some, Option.some.injEq, Prod.mk.injEq] at hs ht hkind hnote
    refine ⟨hkind, fun key hkey => ?_, fun d x => ?_⟩
    · obtain rfl : key = "note" := List.mem_singleton.1 hkey
      exact hnote
    · cases d <;> simp [hs, ht]
  obtain ⟨a, b, bound, ha, hb, hids, hbound, hbound'⟩ :=
    answer_eq_of_alike (q := q) ⟨_, rfl⟩ ⟨_, rfl⟩ rfl halike {} chunked
  obtain ⟨hfound, hbindings⟩ : (q.answer {} s).map Answer.ids = .ok [⟨0⟩]
      ∧ q.bindings {} s = .ok [("f", [⟨0⟩]), ("g", [⟨0⟩])] := by decide +kernel
  rw [ha, Except.map] at hfound
  have hloop : a.ids = [⟨0⟩] := Except.ok.inj hfound
  obtain rfl := Except.ok.inj (hbound.symm.trans hbindings)
  exact ⟨⟨_, rfl⟩, halike, ⟨a, b, ha, hb, hloop, hids ▸ hloop⟩, hbound, hbound'⟩

end Query
end CodeGraph
