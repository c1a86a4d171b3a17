import CodeGraph.Proofs.Connectives

/-!
Queries that are written in another way.

* `Query.mapPaths`, `Query.compile_mapPaths`: a query with its path changed, and when it stays
  accepted.
* `PathPattern.Assigns`, `Query.binds_iff_assigns`: what a query binds, told of the path as it is
  written.
* `Query.exists_answer_eq`, `Query.exists_nodesOf_eq`: two queries have the same answer, and the
  same set for a variable of each, if the rows that satisfy them bind the variables to the same
  nodes.
* `Query.FindSame`, `Query.findSame_of_binds`: the answer and the sets of all variables at once.
-/

namespace CodeGraph

/-- A variable takes a node in an assignment to the path for which a filter holds. -/
def PathPattern.Assigns (s : Store) (p : PathPattern) (filter : Option Expr) (name : String)
    (id : NodeId) : Prop :=
  ∃ r, p.Matches s r ∧ (∀ e ∈ filter, e.holds s (p.lookup r)) ∧ p.lookup r name = some id

namespace Query

variable {s : Store} {q q' : Query} {c c' : ChainQuery} {p p' : PathPattern}

/-! ### Another path -/

/-- A query with each of its paths changed. -/
def mapPaths (change : PathPattern → PathPattern) (q : Query) : Query :=
  { q with matched := q.matched.map (fun clause =>
    { clause with paths := clause.paths.map change }) }

lemma path_mapPaths (hp : q.path = .ok p) (change : PathPattern → PathPattern) :
    (q.mapPaths change).path = .ok (change p) := by
  obtain ⟨clause, hmatched, hoptional, hpaths⟩ := path_eq_ok.1 hp
  exact path_eq_ok.2 ⟨{ clause with paths := clause.paths.map change },
    by rw [mapPaths, hmatched, List.map_singleton], hoptional, by rw [hpaths, List.map_singleton]⟩

/-- **A query stays accepted over another path** if the path makes a chain, has the variable that is
returned, and allows the filter. The chain and the predicate become those of the other path. -/
lemma compile_mapPaths (hc : q.compile = .ok c) (hp : q.path = .ok p)
    {change : PathPattern → PathPattern} {filter : Option Expr}
    (hedges : ∀ e ∈ (change p).edges, e.IsStep ((change p).chain.nodes.map ChainNode.name))
    (hreturned : c.returned ∈ (change p).nodeVariables)
    (hallows : ∀ e ∈ filter, (change p).Allows e) :
    ((q.mapPaths change).filtered filter).compile = .ok
      { c with
        chain := (change p).chain
        predicate := conjunction ((change p).inlinePredicates ++ filter.toList) } := by
  obtain ⟨hclauses, p', item, hp', -, hitem, hname, -, -, hcolumn, hlimit⟩ := compile_eq_ok_iff.1 hc
  cases hp.symm.trans hp'
  exact compile_eq_ok_iff.2 ⟨hclauses, change p, item, path_mapPaths hp change,
    PathPattern.toChain_eq_ok.2 ⟨rfl, hedges⟩, hitem,
    ReturnItem.returnedName_eq_ok.2 ⟨(ReturnItem.returnedName_eq_ok.1 hname).1, hreturned⟩,
    fun e he => (hallows e he).checkFilter, rfl, hcolumn, hlimit⟩

/-- The edges of a path that makes a chain can be steps of it. -/
lemma isStep_of_compile (hc : q.compile = .ok c) (hp : q.path = .ok p) :
    ∀ e ∈ p.edges, e.IsStep (p.chain.nodes.map ChainNode.name) := by
  obtain ⟨-, p', item, hp', hchain, -⟩ := compile_eq_ok_iff.1 hc
  cases hp.symm.trans hp'
  exact (PathPattern.toChain_eq_ok.1 hchain).2

/-- The filter of an accepted query is one that its path allows. -/
lemma allows_of_compile (hc : q.compile = .ok c) (hp : q.path = .ok p) :
    ∀ e ∈ q.filter, p.Allows e := by
  obtain ⟨-, p', item, hp', -, -, -, hcheck, -⟩ := compile_eq_ok_iff.1 hc
  cases hp.symm.trans hp'
  exact fun e he => PathPattern.checkFilter_eq_ok.1 (hcheck e he)

/-- The variable that an accepted query returns is one of its path. -/
lemma returned_mem_of_compile (hc : q.compile = .ok c) (hp : q.path = .ok p) :
    c.returned ∈ p.nodeVariables := by
  obtain ⟨p', item, hp', -, -, hreturned, -⟩ := compile_eq_ok hc
  cases hp.symm.trans hp'
  exact hreturned

/-! ### Queries that find the same -/

/-- What an accepted query binds, told of the path as it is written. -/
lemma binds_iff_assigns (hc : q.compile = .ok c) (hp : q.path = .ok p) (hspace : p.Spaceless)
    {name : String} (hname : name ∈ p.nodeVariables) {id : NodeId} :
    c.Binds s name id ↔ p.Assigns s q.filter name id := by
  obtain ⟨p', item, hp', -, -, -, -, hchain, -⟩ := compile_eq_ok hc
  cases hp.symm.trans hp'
  have hlookup : ∀ r, p.Matches s r → c.chain.lookup r name = p.lookup r name := fun r hr =>
    hchain ▸ PathPattern.lookup_chain ((PathPattern.agrees_chain_iff hspace).2 hr.agrees)
      hspace hname
  refine ⟨fun ⟨r, hr, hid⟩ => ?_, fun ⟨r, hr, hfilter, hid⟩ => ?_⟩
  · obtain ⟨hmatches, hfilter⟩ := (satisfies_iff hc hp hspace).1 hr
    exact ⟨r, hmatches, hfilter, hlookup r hmatches ▸ hid⟩
  · exact ⟨r, (satisfies_iff hc hp hspace).2 ⟨hr, hfilter⟩, (hlookup r hr).trans hid⟩

/-- Two accepted queries with one limit have the same answer if their returned variables are bound
to the same nodes. -/
lemma exists_answer_eq (hs : s.Indexed) (first second : Schedule) (hc : q.compile = .ok c)
    (hc' : q'.compile = .ok c') (hlimit : q.limit = q'.limit)
    (hbinds : ∀ id, c.Binds s c.returned id ↔ c'.Binds s c'.returned id) :
    ∃ a b, q.answer first s = .ok a ∧ q'.answer second s = .ok b ∧ a.ids = b.ids := by
  obtain ⟨p, item, hp, -, -, hreturned, -⟩ := compile_eq_ok hc
  obtain ⟨bound, -, htell⟩ := bindings_tell hs first hc hp
  obtain ⟨ids, -, hascending, hmem⟩ := htell.exists_lookup (List.mem_eraseDups.2 hreturned)
  obtain ⟨a, ha, hids⟩ := answer_limited hs first hc hascending hmem q.limit
  obtain ⟨b, hb, hids'⟩ :=
    answer_limited hs second hc' hascending (fun id => (hmem id).trans (hbinds id)) q'.limit
  exact ⟨a, b, ha, hb, by rw [hids, hids', hlimit]⟩

/-- A variable of an accepted query has a set, and a variable of another query has the same set if
it is bound to the same nodes. -/
lemma exists_nodesOf_eq (hs : s.Indexed) (first second : Schedule) (hc : q.compile = .ok c)
    (hp : q.path = .ok p) (hc' : q'.compile = .ok c') (hp' : q'.path = .ok p') {name name' : String}
    (hname : name ∈ p.nodeVariables) (hname' : name' ∈ p'.nodeVariables)
    (hbinds : ∀ id, c.Binds s name id ↔ c'.Binds s name' id) :
    ∃ set, q.nodesOf first s name = some set ∧ q'.nodesOf second s name' = some set := by
  obtain ⟨bound, hbound, htell⟩ := bindings_tell hs first hc hp
  obtain ⟨bound', hbound', htell'⟩ := bindings_tell hs second hc' hp'
  obtain ⟨set, hset, hascending, hmem⟩ := htell.exists_lookup (List.mem_eraseDups.2 hname)
  obtain ⟨set', hset', hascending', hmem'⟩ := htell'.exists_lookup (List.mem_eraseDups.2 hname')
  obtain rfl : set = set' :=
    hascending.ext hascending' fun id => (hmem id).trans ((hbinds id).trans (hmem' id).symm)
  refine ⟨set, ?_, ?_⟩
  · rw [nodesOf, hbound]
    exact hset
  · rw [nodesOf, hbound']
    exact hset'

/-- Two queries find the same in a store, each by a schedule of its own: they have answers with the
same nodes, and each of some variables has the same set. -/
structure FindSame (s : Store) (first second : Schedule) (q q' : Query)
    (names : List String) : Prop where
  answer : ∃ a b, q.answer first s = .ok a ∧ q'.answer second s = .ok b ∧ a.ids = b.ids
  sets : ∀ name ∈ names, ∃ set, q.nodesOf first s name = some set
    ∧ q'.nodesOf second s name = some set

/-- Two accepted queries with one limit and one returned variable find the same if the variables of
the one are bound to the same nodes in both. -/
lemma findSame_of_binds (hs : s.Indexed) (first second : Schedule) (hc : q.compile = .ok c)
    (hp : q.path = .ok p) (hc' : q'.compile = .ok c') (hp' : q'.path = .ok p')
    (hlimit : q.limit = q'.limit) (hreturned : c'.returned = c.returned)
    (hvars : ∀ name ∈ p.nodeVariables, name ∈ p'.nodeVariables)
    (hbinds : ∀ name ∈ p.nodeVariables, ∀ id, c.Binds s name id ↔ c'.Binds s name id) :
    FindSame s first second q q' p.nodeVariables := by
  refine ⟨exists_answer_eq hs first second hc hc' hlimit fun id => ?_, fun name hname => ?_⟩
  · rw [hreturned, hbinds _ (returned_mem_of_compile hc hp)]
  · exact exists_nodesOf_eq hs first second hc hp hc' hp' hname (hvars name hname)
      (hbinds name hname)

end Query
end CodeGraph
