import CodeGraph.Proofs.Meaning

/-!
Which queries are accepted, and what is wrong with the others.

A query can be at fault in many ways, and in several at once. All of its faults are listed here,
clause by clause and each without regard to the others. A query is refused for the first of them.

* `RefusedFor`: a computation is refused for the first of some faults; `RefusedFor.bind`,
  `RefusedFor.mapM`: how such computations are put together.
* `Expr.calls`: the functions that an expression calls at any depth.
* `Query.Supported`: the queries that can be run.
* `Query.faults`: what is wrong with a query. `Query.compile_refusedFor`: a query is refused for its
  first fault. `Query.faults_eq_nil_iff`: nothing is wrong with the supported ones only.
* `ChainQuery.Lowers`: what becomes of a path.
* `Query.compile_supported`: exactly the supported queries are accepted, and what comes of them can
  be run.
-/

namespace CodeGraph

/-! ### The first of several faults -/

section Refusals

variable {α β ε : Type} {x : Except ε α} {faults more : List ε}

/-- A computation is refused for the first of some faults, and succeeds if there is none. -/
def RefusedFor (x : Except ε α) (faults : List ε) : Prop :=
  ∀ e, x = .error e ↔ faults.head? = some e

lemma refusedFor_ok (a : α) : RefusedFor (.ok a : Except ε α) [] := fun e => by simp

lemma refusedFor_error (e : ε) (more : List ε) : RefusedFor (.error e : Except ε α) (e :: more) :=
  fun e' => by simp

/-- A computation succeeds exactly if there is no fault. -/
lemma RefusedFor.exists_ok_iff (h : RefusedFor x faults) : (∃ a, x = .ok a) ↔ faults = [] := by
  cases x with
  | error e =>
      have hhead := (h e).1 rfl
      constructor
      · rintro ⟨a, ha⟩
        cases ha
      · rintro rfl
        cases hhead
  | ok a =>
      refine iff_of_true ⟨a, rfl⟩ (List.eq_nil_iff_forall_not_mem.2 fun e he => ?_)
      obtain ⟨first, rest, rfl⟩ := List.exists_cons_of_ne_nil (List.ne_nil_of_mem he)
      exact nomatch (h first).2 rfl

/-- The faults of what comes first go first. -/
lemma RefusedFor.bind {f : α → Except ε β} (h : RefusedFor x faults)
    (hf : ∀ a, x = .ok a → RefusedFor (f a) more) :
    RefusedFor (x >>= f) (faults ++ more) := by
  cases x with
  | error e =>
      obtain ⟨rest, rfl⟩ := List.head?_eq_some_iff.1 ((h e).1 rfl)
      exact refusedFor_error e (rest ++ more)
  | ok a =>
      rw [h.exists_ok_iff.1 ⟨a, rfl⟩]
      exact hf a rfl

/-- A demand in front of a computation. -/
lemma RefusedFor.ite {p : Prop} [Decidable p] {e : ε} (h : ¬ p → RefusedFor x faults) :
    RefusedFor (if p then .error e else x) ((if p then [e] else []) ++ faults) := by
  by_cases hp : p
  · rw [if_pos hp, if_pos hp]
    exact refusedFor_error e faults
  · rw [if_neg hp, if_neg hp]
    exact h hp

/-- A check of each item is refused for the first fault of the first item that has one. -/
lemma RefusedFor.mapM {f : α → Except ε β} {g : α → List ε} {xs : List α}
    (h : ∀ x ∈ xs, RefusedFor (f x) (g x)) :
    RefusedFor (xs.mapM f) (xs.flatMap g) := by
  induction xs with
  | nil => exact refusedFor_ok []
  | cons x rest ih =>
      obtain ⟨hx, hrest⟩ := List.forall_mem_cons.1 h
      rw [List.mapM_cons, List.flatMap_cons, ← List.append_nil (rest.flatMap g)]
      exact hx.bind fun y _ => (ih hrest).bind fun ys _ => refusedFor_ok (y :: ys)

lemma RefusedFor.forM {f : α → Except ε Unit} {g : α → List ε} {xs : List α}
    (h : ∀ x ∈ xs, RefusedFor (f x) (g x)) :
    RefusedFor (xs.forM f) (xs.flatMap g) := by
  induction xs with
  | nil => exact refusedFor_ok ()
  | cons x rest ih =>
      obtain ⟨hx, hrest⟩ := List.forall_mem_cons.1 h
      rw [List.flatMap_cons]
      exact hx.bind fun _ _ => ih hrest

end Refusals

/-! ### Calls -/

namespace Expr

mutual

/-- The functions that an expression calls, also in the arguments of other calls. -/
def calls : Expr → List String
  | binary _ left right => left.calls ++ right.calls
  | unary _ operand => operand.calls
  | call function arguments => function :: callsOfAll arguments
  | property _ _ | literal _ | var _ => []

/-- The functions that several expressions call. -/
def callsOfAll : List Expr → List String
  | [] => []
  | e :: rest => e.calls ++ callsOfAll rest

end

/-- The first call of an expression is the first of its calls. -/
lemma head?_calls (e : Expr) : e.calls.head? = e.function? := by
  induction e using function?.induct with
  | case1 name arguments => rfl
  | case2 op left right ihl ihr => rw [calls, List.head?_append, ihl, ihr, function?]
  | case3 op operand ih => exact ih
  | case4 e hcall hbinary hunary =>
      cases e with
      | property | literal | var => rfl
      | binary op left right => exact absurd rfl (hbinary op left right)
      | unary op operand => exact absurd rfl (hunary op operand)
      | call name arguments => exact absurd rfl (hcall name arguments)

lemma calls_eq_nil_iff {e : Expr} : e.calls = [] ↔ e.function? = none := by
  rw [← head?_calls, List.head?_eq_none_iff]

lemma calls_foldl_and (e : Expr) (rest : List Expr) :
    (rest.foldl Expr.and e).calls = e.calls ++ rest.flatMap calls := by
  induction rest generalizing e with
  | nil => simp
  | cons first rest ih => simp [ih, Expr.and, calls]

end Expr

/-- A conjunction calls what its parts call. -/
lemma calls_conjunction {es : List Expr} {e : Expr} (he : conjunction es = some e) :
    e.calls = es.flatMap Expr.calls := by
  cases es with
  | nil => cases he
  | cons first rest =>
      obtain rfl := Option.some.inj he
      rw [Expr.calls_foldl_and, List.flatMap_cons]

/-! ### Faults -/

/-- What is wrong with a variable where the variable of a node is meant. -/
def variableFaults (nodes edges : List String) (place : Place) (name : String) : List QueryError :=
  if name ∈ nodes then []
  else if name ∈ edges then [.unsupported (.edgeVariable name place)]
  else [.undeclared name]

/-- What is wrong with a match by itself. -/
def MatchClause.faults (clause : MatchClause) : List QueryError :=
  (if clause.optional then [.unsupported .optionalMatch] else [])
    ++ ((if clause.paths.isEmpty then [.planning .emptyPattern] else [])
    ++ (if 1 < clause.paths.length then [.unsupported .severalPaths] else []))

/-- What is wrong with an edge among nodes of some variables. -/
def EdgePattern.faults (nodes : List String) (e : EdgePattern) : List QueryError :=
  (if e.length.isSome then [.unsupported .pathLength] else [])
    ++ ((if e.properties.any (fun m => !m.isEmpty) then [.unsupported .edgeProperties] else [])
    ++ (e.name.toList.filter (· ∈ nodes)).map (fun name => .planning (.nameOfNodeAndEdge name)))

/-- What is wrong with what is returned, among nodes and edges of some variables. -/
def ReturnItem.faults (nodes edges : List String) (item : ReturnItem) : List QueryError :=
  match item.value with
  | .var name => variableFaults nodes edges .returned name
  | .property name key => [.unsupported (.propertyProjection name key)]
  | .call function _ => [.unsupported (.call function .returned)]
  | .literal _ | .binary _ _ _ | .unary _ _ => [.unsupported .otherProjection]

/-- What is wrong with a filter, among nodes and edges of some variables. -/
def Expr.filterFaults (nodes edges : List String) (filter : Expr) : List QueryError :=
  filter.calls.map (fun function => .unsupported (.call function .filter))
    ++ filter.vars.flatMap (variableFaults nodes edges .filter)

namespace Query

variable {q : Query} {p : PathPattern} {c : ChainQuery}

/-- All paths that a query matches. -/
def paths (q : Query) : List PathPattern := q.matched.flatMap MatchClause.paths

/-- The variables of all nodes that a query matches. -/
def nodeVariables (q : Query) : List String := q.paths.flatMap PathPattern.nodeVariables

/-- The variables of all edges that a query matches. -/
def edgeVariables (q : Query) : List String := q.paths.flatMap PathPattern.edgeVariables

/-- All that a query returns. -/
def items (q : Query) : List ReturnItem := q.returned.toList.flatMap ReturnClause.items

/-- The clauses of a query that cannot be run at all. -/
def clauseFaults (q : Query) : List QueryError :=
  q.writes.map (fun clause => .unsupported (.writeClause clause.keyword))
    ++ ((if q.order.isSome then [.unsupported .order] else [])
    ++ (if q.skip.isSome then [.unsupported .skip] else []))

/-- What is wrong with the matches of a query. -/
def matchFaults (q : Query) : List QueryError :=
  (if q.matched.isEmpty then [.planning .noMatch] else [])
    ++ ((if 1 < q.matched.length then [.unsupported .severalMatches] else [])
    ++ q.matched.flatMap MatchClause.faults)

/-- What is wrong with the edges that a query matches. -/
def edgeFaults (q : Query) : List QueryError :=
  q.paths.flatMap (fun p => p.edges.flatMap (EdgePattern.faults q.nodeVariables))

/-- What is wrong with how much a query returns. -/
def returnFaults (q : Query) : List QueryError :=
  (if q.returned.isNone then [.planning .noReturn] else [])
    ++ ((if q.returned.isSome && q.items.isEmpty then [.planning .emptyReturn] else [])
    ++ (if 1 < q.items.length then [.unsupported .severalItems] else []))

/-- All that is wrong with a query, in the order in which it is looked at. -/
def faults (q : Query) : List QueryError :=
  q.clauseFaults ++ (q.matchFaults ++ (q.edgeFaults ++ (q.returnFaults
    ++ (q.items.flatMap (ReturnItem.faults q.nodeVariables q.edgeVariables)
    ++ q.filter.toList.flatMap (Expr.filterFaults q.nodeVariables q.edgeVariables)))))

end Query

/-- A variable is never at fault for what the query lacks. -/
lemma planning_notMem_variableFaults (fault : PlanFault) (nodes edges : List String) (place : Place)
    (name : String) :
    .planning fault ∉ variableFaults nodes edges place name := by
  rw [variableFaults]
  split_ifs <;> simp

lemma ReturnItem.planning_notMem_faults (fault : PlanFault) (nodes edges : List String)
    (item : ReturnItem) :
    .planning fault ∉ item.faults nodes edges := by
  rw [faults]
  cases item.value with
  | var name => exact planning_notMem_variableFaults fault nodes edges .returned name
  | property | call | literal | binary | unary => simp

lemma Expr.planning_notMem_filterFaults (fault : PlanFault) (nodes edges : List String)
    (filter : Expr) :
    .planning fault ∉ filter.filterFaults nodes edges := by
  simp [filterFaults, planning_notMem_variableFaults]

/-- What a query lacks, or uses for two things, is a fault of its matches, of their edges, or of how
much it returns. -/
lemma Query.planning_mem_faults {q : Query} {fault : PlanFault} :
    .planning fault ∈ q.faults
      ↔ .planning fault ∈ q.matchFaults ∨ .planning fault ∈ q.edgeFaults
        ∨ .planning fault ∈ q.returnFaults := by
  simp [faults, clauseFaults, ReturnItem.planning_notMem_faults, Expr.planning_notMem_filterFaults]

namespace Query

variable {q : Query} {p : PathPattern} {c : ChainQuery}

/-! ### The parts of a query for one path -/

lemma paths_of_path (hp : q.path = .ok p) : q.paths = [p] := by
  obtain ⟨clause, hmatched, -, hpaths⟩ := path_eq_ok.1 hp
  rw [paths, hmatched, List.flatMap_singleton, hpaths]

lemma nodeVariables_of_path (hp : q.path = .ok p) : q.nodeVariables = p.nodeVariables := by
  rw [nodeVariables, paths_of_path hp, List.flatMap_singleton]

lemma edgeVariables_of_path (hp : q.path = .ok p) : q.edgeVariables = p.edgeVariables := by
  rw [edgeVariables, paths_of_path hp, List.flatMap_singleton]

lemma items_of_returnedItem {item : ReturnItem} (h : q.returnedItem = .ok item) :
    q.items = [item] := by
  obtain ⟨clause, hreturned, hitems⟩ := returnedItem_eq_ok.1 h
  rw [items, hreturned, Option.toList_some, List.flatMap_singleton, hitems]

/-! ### A query is refused for its first fault -/

/-- Clauses that are not supported are looked for first. -/
lemma checkClauses_refusedFor (q : Query) : RefusedFor q.checkClauses q.clauseFaults := by
  rw [checkClauses, clauseFaults]
  cases q.writes with
  | cons clause rest => exact refusedFor_error _ _
  | nil =>
      refine RefusedFor.ite fun _ => ?_
      rw [← List.append_nil (if q.skip.isSome then _ else _)]
      exact RefusedFor.ite fun _ => refusedFor_ok ()

/-- Then the query has to have one pattern. -/
lemma path_refusedFor (q : Query) : RefusedFor q.path q.matchFaults := by
  rw [path, matchFaults]
  rcases q.matched with _ | ⟨clause, _ | ⟨clause', rest⟩⟩
  · exact refusedFor_error _ _
  · rw [List.flatMap_singleton]
    refine RefusedFor.ite fun _ => ?_
    rcases clause.paths with _ | ⟨p, _ | ⟨p', more⟩⟩
    · exact refusedFor_error _ _
    · exact refusedFor_ok p
    · exact refusedFor_error _ _
  · exact refusedFor_error _ _

/-- An edge is refused for the first of its faults, if its variable cannot be one that is made up.
-/
lemma checkEdge_refusedFor {e : EdgePattern} (he : e ∈ p.edges)
    (hspace : ∀ name ∈ p.edgeVariables, ' ' ∉ name.toList) :
    RefusedFor (PathPattern.checkEdge p.chainNodes e) (e.faults p.nodeVariables) := by
  rw [PathPattern.checkEdge, EdgePattern.faults]
  refine RefusedFor.ite fun _ => RefusedFor.ite fun _ => ?_
  cases hname : e.name with
  | none => exact refusedFor_ok _
  | some name =>
      dsimp only
      have hedge : name ∈ p.edgeVariables := PathPattern.mem_edgeVariables.2 ⟨e, he, hname⟩
      have hany : p.chainNodes.any (fun n => n.name == name) = true ↔ name ∈ p.nodeVariables := by
        have hmem : p.chainNodes.any (fun n => n.name == name) = true
            ↔ name ∈ p.chain.nodes.map ChainNode.name := by
          simp [PathPattern.chain]
        rw [hmem, PathPattern.mem_names_chain]
        refine or_iff_left ?_
        rintro ⟨k, n, -, -, rfl⟩
        exact hspace _ hedge (space_mem_anonymousName k)
      by_cases hnode : name ∈ p.nodeVariables
      · rw [if_pos (hany.2 hnode)]
        simpa [hnode] using refusedFor_error (α := ChainStep)
          (QueryError.planning (.nameOfNodeAndEdge name)) []
      · rw [if_neg (mt hany.1 hnode)]
        simpa [hnode, EdgePattern.step] using refusedFor_ok (ε := QueryError) e.step

/-- Then the edges are checked, from the first to the last. -/
lemma toChain_refusedFor (hp : q.path = .ok p)
    (hspace : ∀ name ∈ q.edgeVariables, ' ' ∉ name.toList) :
    RefusedFor p.toChain q.edgeFaults := by
  rw [edgeVariables_of_path hp] at hspace
  rw [edgeFaults, paths_of_path hp, List.flatMap_singleton, nodeVariables_of_path hp,
    PathPattern.edges, List.flatMap_map, ← List.append_nil (List.flatMap _ _)]
  refine RefusedFor.bind (RefusedFor.mapM fun segment hsegment => ?_) fun steps _ => refusedFor_ok _
  exact checkEdge_refusedFor (List.mem_map_of_mem hsegment) hspace

/-- Then what is returned has to be one item. -/
lemma returnedItem_refusedFor (q : Query) : RefusedFor q.returnedItem q.returnFaults := by
  rw [returnedItem, returnFaults, items]
  rcases q.returned with _ | clause
  · exact refusedFor_error _ _
  · rw [Option.toList_some, List.flatMap_singleton]
    dsimp only
    rcases clause.items with _ | ⟨item, _ | ⟨item', more⟩⟩
    · exact refusedFor_error _ _
    · exact refusedFor_ok item
    · exact refusedFor_error _ _

/-- A variable of an edge is refused in another way than one that is not declared. -/
lemma checkVariable_refusedFor (p : PathPattern) (place : Place) (name : String) :
    RefusedFor (p.checkVariable place name)
      (variableFaults p.nodeVariables p.edgeVariables place name) := by
  rw [PathPattern.checkVariable, variableFaults]
  split_ifs
  · exact refusedFor_ok ()
  · exact refusedFor_error _ _
  · exact refusedFor_error _ _

lemma returned_refusedFor (p : PathPattern) (item : ReturnItem) :
    RefusedFor (item.returnedName p) (item.faults p.nodeVariables p.edgeVariables) := by
  rw [ReturnItem.returnedName, ReturnItem.faults]
  cases item.value with
  | var name =>
      dsimp only
      rw [← List.append_nil (variableFaults _ _ _ _)]
      exact RefusedFor.bind (checkVariable_refusedFor p .returned name) fun _ _ =>
        refusedFor_ok name
  | property | call | literal | binary | unary => exact refusedFor_error _ _

/-- Calls in a filter are refused before its variables are. -/
lemma checkFilter_refusedFor (p : PathPattern) (filter : Expr) :
    RefusedFor (p.checkFilter filter) (filter.filterFaults p.nodeVariables p.edgeVariables) := by
  rw [PathPattern.checkFilter, Expr.filterFaults, ← Expr.head?_calls]
  cases filter.calls with
  | nil => exact RefusedFor.forM fun name _ => checkVariable_refusedFor p .filter name
  | cons function rest => exact refusedFor_error _ _

/-- **A query is refused for its first fault**, and accepted if it has none. -/
lemma compile_refusedFor (hspace : ∀ name ∈ q.edgeVariables, ' ' ∉ name.toList) :
    RefusedFor q.compile q.faults := by
  rw [faults]
  refine RefusedFor.bind (checkClauses_refusedFor q) fun _ _ => ?_
  refine RefusedFor.bind (path_refusedFor q) fun p hp => ?_
  refine RefusedFor.bind (toChain_refusedFor hp hspace) fun chain _ => ?_
  refine RefusedFor.bind (returnedItem_refusedFor q) fun item hitem => ?_
  rw [items_of_returnedItem hitem, List.flatMap_singleton, nodeVariables_of_path hp,
    edgeVariables_of_path hp]
  refine RefusedFor.bind (returned_refusedFor p item) fun name _ => ?_
  cases hfilter : q.filter with
  | none => exact refusedFor_ok _
  | some filter =>
      rw [Option.toList_some, List.flatMap_singleton, ← List.append_nil (Expr.filterFaults _ _ _)]
      exact RefusedFor.bind (checkFilter_refusedFor p filter) fun _ _ => refusedFor_ok _

/-! ### Queries that can be run -/

/-- A query for a path can be run: it writes nothing, orders nothing and skips nothing; it has one
match, which is not optional, and of this path only; the edges of the path have no lengths, no
properties, and no variables of nodes; it returns one variable, that of a node; and its filter calls
no function and speaks of variables of nodes only. -/
structure Supported (q : Query) (p : PathPattern) : Prop where
  writes : q.writes = []
  order : q.order = none
  skip : q.skip = none
  matched : ∃ clause, q.matched = [clause] ∧ clause.optional = false ∧ clause.paths = [p]
  length : ∀ e ∈ p.edges, e.length = none
  properties : ∀ e ∈ p.edges, ∀ m ∈ e.properties, m.isEmpty
  edgeNames : ∀ name ∈ p.edgeVariables, name ∉ p.nodeVariables
  returned : ∃ clause item name, q.returned = some clause ∧ clause.items = [item]
    ∧ item.value = .var name
    ∧ name ∈ p.nodeVariables
  calls : ∀ e ∈ q.filter, e.calls = []
  vars : ∀ e ∈ q.filter, ∀ name ∈ e.vars, name ∈ p.nodeVariables

/-! ### What is accepted is supported -/

lemma checkClauses_eq_ok :
    q.checkClauses = .ok () ↔ q.writes = [] ∧ q.order = none ∧ q.skip = none := by
  rw [checkClauses]
  cases q.writes with
  | cons clause rest => simp
  | nil => cases q.order <;> cases q.skip <;> simp

/-- What compiles is supported: no check is skipped. -/
lemma supported_of_compile (hc : q.compile = .ok c) : ∃ p, q.path = .ok p ∧ q.Supported p := by
  obtain ⟨hclauses, p, item, hp, hchain, hitem, hname, hfilter, -⟩ := compile_eq_ok_iff.1 hc
  obtain ⟨hwrites, horder, hskip⟩ := checkClauses_eq_ok.1 hclauses
  obtain ⟨-, hsteps⟩ := PathPattern.toChain_eq_ok.1 hchain
  obtain ⟨hvalue, hmem⟩ := ReturnItem.returnedName_eq_ok.1 hname
  obtain ⟨clause, hreturned, hitems⟩ := returnedItem_eq_ok.1 hitem
  refine ⟨p, hp, hwrites, horder, hskip, path_eq_ok.1 hp, fun e he => (hsteps e he).length_eq,
    fun e he => (hsteps e he).isEmpty, fun name hedge hnode => ?_,
    ⟨clause, item, c.returned, hreturned, hitems, hvalue, hmem⟩, fun e he => ?_,
    fun e he => (PathPattern.checkFilter_eq_ok.1 (hfilter e he)).2⟩
  · obtain ⟨e, he, hename⟩ := PathPattern.mem_edgeVariables.1 hedge
    exact (hsteps e he).name_notMem name hename (PathPattern.mem_names_chain.2 (.inl hnode))
  · exact Expr.calls_eq_nil_iff.2 (PathPattern.checkFilter_eq_ok.1 (hfilter e he)).1

lemma Supported.path_eq_ok (h : q.Supported p) : q.path = .ok p := Query.path_eq_ok.2 h.matched

/-- **A supported query is accepted** if no variable of an edge has a space, as the ones have that
are made up. -/
lemma Supported.exists_compile (h : q.Supported p)
    (hspace : ∀ name ∈ q.edgeVariables, ' ' ∉ name.toList) :
    ∃ c, q.compile = .ok c := by
  obtain ⟨clause, item, name, hreturned, hitems, hvalue, hname⟩ := h.returned
  rw [edgeVariables_of_path h.path_eq_ok] at hspace
  have hsteps : ∀ e ∈ p.edges, e.IsStep (p.chain.nodes.map ChainNode.name) := by
    refine fun e he => ⟨h.length e he, h.properties e he, fun x hx hmem => ?_⟩
    have hedge : x ∈ p.edgeVariables := PathPattern.mem_edgeVariables.2 ⟨e, he, hx⟩
    rcases PathPattern.mem_names_chain.1 hmem with hnode | ⟨k, n, -, -, rfl⟩
    · exact h.edgeNames x hedge hnode
    · exact hspace _ hedge (space_mem_anonymousName k)
  refine ⟨⟨p.chain, conjunction (p.inlinePredicates ++ q.filter.toList), name,
    item.heading.getD name, q.limit⟩, ?_⟩
  exact compile_eq_ok_iff.2 ⟨checkClauses_eq_ok.2 ⟨h.writes, h.order, h.skip⟩, p, item,
    h.path_eq_ok, PathPattern.toChain_eq_ok.2 ⟨rfl, hsteps⟩,
    returnedItem_eq_ok.2 ⟨clause, hreturned, hitems⟩,
    ReturnItem.returnedName_eq_ok.2 ⟨hvalue, hname⟩,
    fun e he => PathPattern.checkFilter_eq_ok.2 ⟨Expr.calls_eq_nil_iff.1 (h.calls e he),
      h.vars e he⟩, rfl, rfl, rfl⟩

/-- **A query without a fault** is a supported one. -/
lemma faults_eq_nil_iff (hspace : ∀ name ∈ q.edgeVariables, ' ' ∉ name.toList) :
    q.faults = [] ↔ ∃ p, q.Supported p := by
  rw [← (compile_refusedFor hspace).exists_ok_iff]
  constructor
  · rintro ⟨c, hc⟩
    obtain ⟨p, -, hsupported⟩ := supported_of_compile hc
    exact ⟨p, hsupported⟩
  · rintro ⟨p, hp⟩
    exact hp.exists_compile hspace

end Query

/-! ### What becomes of a query -/

/-- A chain query that a path was turned into: the positions are the nodes of the path in their
order, and the steps its edges; the predicate speaks of variables that stand somewhere and calls
nothing, and what is returned stands at a position that was given a variable. -/
structure ChainQuery.Lowers (p : PathPattern) (c : ChainQuery) : Prop where
  fits : c.chain.nodes.length = c.chain.steps.length + 1
  nodes : List.Forall₂ (fun (n : NodePattern) (x : ChainNode) =>
    x.labels = n.labels ∧ x.anonymous = n.name.isNone
      ∧ ∀ name ∈ n.name, x.name = name) p.nodes c.chain.nodes
  steps : List.Forall₂ (fun (e : EdgePattern) (step : ChainStep) =>
    step.groups = e.groups ∧ step.direction = e.direction) p.edges c.chain.steps
  vars : ∀ e ∈ c.predicate, ∀ name ∈ e.vars, ∃ x ∈ c.chain.nodes, x.name = name
  calls : ∀ e ∈ c.predicate, e.calls = []
  returned : ∃ x ∈ c.chain.nodes, x.name = c.returned ∧ x.anonymous = false

lemma PathPattern.forall₂_chain (p : PathPattern) :
    List.Forall₂ (fun (n : NodePattern) (x : ChainNode) =>
      x.labels = n.labels ∧ x.anonymous = n.name.isNone
        ∧ ∀ name ∈ n.name, x.name = name) p.nodes p.chain.nodes := by
  refine List.forall₂_iff_get.2 ⟨p.length_nodes_chain.symm, fun k hk hk' => ?_⟩
  have hx := (List.getElem?_eq_getElem hk').symm.trans
    (getElem?_chain_of_eq_some (List.getElem?_eq_getElem hk))
  rw [List.get_eq_getElem, List.get_eq_getElem, Option.some.inj hx]
  exact ⟨rfl, rfl, fun name hname => NodePattern.name_toChainNode _ hname k⟩

namespace Query

variable {q : Query} {p : PathPattern} {c : ChainQuery}

/-- What compiles is a chain that says what the query says. -/
lemma lowers_of_compile (hc : q.compile = .ok c) (hp : q.path = .ok p) : c.Lowers p := by
  obtain ⟨hfits, hvars⟩ := wellFormed_of_compile hc
  obtain ⟨p', item, hp', -, -, hreturned, -, hchain, hpredicate, -⟩ := compile_eq_ok hc
  obtain ⟨p'', hp'', hsupported⟩ := supported_of_compile hc
  cases hp.symm.trans hp'
  cases hp.symm.trans hp''
  refine ⟨hfits, hchain ▸ p.forall₂_chain, ?_, fun e he name hname => ?_, fun e he => ?_, ?_⟩
  · rw [hchain, PathPattern.steps_chain, List.forall₂_map_right_iff, List.forall₂_same]
    exact fun e _ => ⟨rfl, rfl⟩
  · obtain ⟨k, x, hx, hname⟩ := hvars e he name hname
    exact ⟨x, List.mem_of_getElem? hx, hname⟩
  · rw [calls_conjunction (hpredicate ▸ he), List.flatMap_eq_nil_iff]
    intro part hpart
    rcases List.mem_append.1 hpart with hinline | hfilter
    · obtain ⟨k, n, -, hcomparison⟩ := PathPattern.mem_inlinePredicates.1 hinline
      obtain ⟨m, -, entry, -, rfl⟩ := NodePattern.mem_comparisons.1 hcomparison
      rfl
    · exact hsupported.calls part (Option.mem_toList.1 hfilter)
  · obtain ⟨k, n, hn, hname⟩ := PathPattern.mem_nodeVariables.1 hreturned
    have hx : n.toChainNode k ∈ c.chain.nodes :=
      hchain ▸ List.mem_of_getElem? (PathPattern.getElem?_chain_of_eq_some hn)
    exact ⟨n.toChainNode k, hx,
      n.name_toChainNode hname k, by rw [NodePattern.toChainNode, hname]; rfl⟩

/-- **Exactly the supported queries are accepted**, if no variable of an edge has a space. What
comes of an accepted query can be run: it follows the path, has the limit of the query, and speaks
only of what is there. Any other query is refused for the first of its faults, so one with a single
fault is refused for that one: for a variable that was never given, as for anything else. -/
theorem compile_supported (hspace : ∀ name ∈ q.edgeVariables, ' ' ∉ name.toList) :
    ((∃ c, q.compile = .ok c) ↔ ∃ p, q.Supported p)
      ∧ (∀ c, q.compile = .ok c → ∃ p, q.Supported p ∧ c.Lowers p ∧ c.limit = q.limit
        ∧ ∀ item ∈ q.items, item.value = .var c.returned)
      ∧ (∀ e, q.compile = .error e ↔ q.faults.head? = some e)
      ∧ ∀ e ∈ q.faults, (∀ e' ∈ q.faults, e' = e) → q.compile = .error e := by
  have hrefused := compile_refusedFor hspace
  refine ⟨hrefused.exists_ok_iff.trans (faults_eq_nil_iff hspace), fun c hc => ?_, hrefused,
    fun e he honly => ?_⟩
  · obtain ⟨p, hp, hsupported⟩ := supported_of_compile hc
    obtain ⟨p', item, -, hitem, hvalue, -, -, -, -, -, hlimit⟩ := compile_eq_ok hc
    refine ⟨p, hsupported, lowers_of_compile hc hp, hlimit, fun item' hitem' => ?_⟩
    rw [items_of_returnedItem hitem, List.mem_singleton] at hitem'
    rw [hitem', hvalue]
  · obtain ⟨first, rest, hfaults⟩ := List.exists_cons_of_ne_nil (List.ne_nil_of_mem he)
    have hfirst : first = e := honly first (hfaults ▸ List.mem_cons_self)
    exact (hrefused e).2 (by rw [hfaults, hfirst, List.head?_cons])

/-- The callers of anything that have a name are five methods at most; a caller that was never given
is refused. -/
theorem compile_supported_of_calls :
    let p : PathPattern :=
      { start := { name := some "f", labels := [⟨"METHOD"⟩] }
        segments := [⟨{ name := some "call", groups := [⟨"calls"⟩], direction := .outgoing }, {}⟩] }
    let q := (matching p (some (.unary .isNotNull (.property "f" "name"))) "f").withLimit 5
    let unknown := matching p none "g"
    (∀ name ∈ q.edgeVariables, ' ' ∉ name.toList) ∧ q.Supported p ∧ (∃ c, q.compile = .ok c)
      ∧ (∀ name ∈ unknown.edgeVariables, ' ' ∉ name.toList) ∧ unknown.faults = [.undeclared "g"]
      ∧ unknown.compile = .error (.undeclared "g") := by
  intro p q unknown
  have hspace : ∀ name ∈ p.edgeVariables, ' ' ∉ name.toList := by
    intro name hname
    cases List.mem_singleton.1 hname
    decide +kernel
  have hsupported : q.Supported p := by
    refine ⟨rfl, rfl, rfl, ⟨_, rfl, rfl, rfl⟩, by decide, by decide, by decide,
      ⟨_, _, "f", rfl, rfl, rfl, by decide⟩, ?_, ?_⟩
    · rintro e ⟨⟩
      rfl
    · rintro e ⟨⟩
      decide
  have hq : ∀ name ∈ q.edgeVariables, ' ' ∉ name.toList := hspace
  have hunknown : ∀ name ∈ unknown.edgeVariables, ' ' ∉ name.toList := hspace
  have hfaults : unknown.faults = [.undeclared "g"] := by decide
  exact ⟨hq, hsupported, (compile_supported hq).1.2 ⟨p, hsupported⟩, hunknown, hfaults,
    ((compile_supported hunknown).2.2.1 _).2 (by rw [hfaults]; rfl)⟩

end Query
end CodeGraph
