import CodeGraph.Proofs.Bindings

/-!
Filters that are joined by connectives, and the sets that they leave.

* `PathPattern.Allows`: the filters that a query for a path may have.
* `PathPattern.BindsWhere`, `PathPattern.Collects`: the nodes that a variable takes in the rows of a
  path of which a condition holds, and the set of them, which is determined by what the condition
  means.
* `Query.nodesOf`, `Query.exists_nodesOf_filtered`: the set of a variable under a filter, which is
  the same description whether the filter is decided at once, asked of nodes or asked of rows.
* `Query.nodesOf_connectives`: the sets under a disjunction, a negation and a conjunction.
-/

namespace CodeGraph

/-! ### Truth under a connective -/

namespace Expr

variable {s : Store} {f : Lookup} {left right e : Expr}

lemma holds_and : (left.and right).holds s f ↔ left.holds s f ∧ right.holds s f := by
  simp [Expr.and, Connective.apply]

lemma holds_or :
    (binary (.connective .or) left right).holds s f ↔ left.holds s f ∨ right.holds s f := by
  simp [Connective.apply]

lemma holds_not_iff : (unary .not e).holds s f ↔ ¬ e.holds s f := by
  simp

end Expr

/-! ### Filters of a path -/

namespace PathPattern

variable {s : Store} {p : PathPattern} {left right e : Expr} {name : String} {id : NodeId}

/-- A query for a path may have a filter that calls no function and speaks of variables of the path
only. -/
def Allows (p : PathPattern) (e : Expr) : Prop :=
  e.function? = none ∧ ∀ x ∈ e.vars, x ∈ p.nodeVariables

lemma Allows.checkFilter (h : p.Allows e) : p.checkFilter e = .ok () := checkFilter_eq_ok.2 h

/-- A path with more variables allows more filters. -/
lemma Allows.mono {p' : PathPattern} (h : p.Allows e)
    (hvars : ∀ x ∈ p.nodeVariables, x ∈ p'.nodeVariables) :
    p'.Allows e :=
  ⟨h.1, fun x hx => hvars x (h.2 x hx)⟩

lemma Allows.binary (hleft : p.Allows left) (hright : p.Allows right) (op : BinaryOp) :
    p.Allows (.binary op left right) := by
  refine ⟨by rw [Expr.function?, hleft.1, hright.1]; rfl, fun x hx => ?_⟩
  exact (Expr.mem_vars_binary.1 hx).elim (hleft.2 x) (hright.2 x)

lemma Allows.unary (h : p.Allows e) (op : UnaryOp) : p.Allows (.unary op e) := h

lemma allows_var (h : name ∈ p.nodeVariables) : p.Allows (.var name) :=
  ⟨rfl, by simp [Expr.vars, Expr.collect, Expr.noteName, h]⟩

lemma allows_foldl_and {es : List Expr} (he : p.Allows e) (hes : ∀ e' ∈ es, p.Allows e') :
    p.Allows (es.foldl .and e) := by
  induction es generalizing e with
  | nil => exact he
  | cons first rest ih =>
      obtain ⟨hfirst, hrest⟩ := List.forall_mem_cons.1 hes
      exact ih (he.binary hfirst _) hrest

/-- A conjunction of filters that a path allows is allowed. -/
lemma allows_conjunction {es : List Expr} (hes : ∀ e ∈ es, p.Allows e) :
    ∀ e ∈ conjunction es, p.Allows e := by
  intro e he
  cases es with
  | nil => cases he
  | cons first rest =>
      cases he
      obtain ⟨hfirst, hrest⟩ := List.forall_mem_cons.1 hes
      exact allows_foldl_and hfirst hrest

/-! ### The nodes of a variable under a condition -/

/-- A variable takes a node in a row of the path, property maps and all, of which a condition holds.
-/
def BindsWhere (s : Store) (p : PathPattern) (condition : Lookup → Prop) (name : String)
    (id : NodeId) :
    Prop :=
  ∃ r, p.chain.Fits s r ∧ (∀ e ∈ p.inlinePredicates, e.holds s (p.chain.lookup r))
    ∧ condition (p.chain.lookup r) ∧ p.chain.lookup r name = some id

/-- A row of which one of two conditions holds is a row of the one or of the other. -/
lemma bindsWhere_or {condition condition' : Lookup → Prop} :
    p.BindsWhere s (fun f => condition f ∨ condition' f) name id
      ↔ p.BindsWhere s condition name id ∨ p.BindsWhere s condition' name id := by
  constructor
  · rintro ⟨r, hfits, hinline, hcondition | hcondition, hid⟩
    · exact .inl ⟨r, hfits, hinline, hcondition, hid⟩
    · exact .inr ⟨r, hfits, hinline, hcondition, hid⟩
  · rintro (⟨r, hfits, hinline, hcondition, hid⟩ | ⟨r, hfits, hinline, hcondition, hid⟩)
    · exact ⟨r, hfits, hinline, .inl hcondition, hid⟩
    · exact ⟨r, hfits, hinline, .inr hcondition, hid⟩

/-- A set collects the nodes of a variable under a condition, in ascending order. -/
structure Collects (s : Store) (p : PathPattern) (condition : Lookup → Prop) (name : String)
    (set : NodeSet) : Prop where
  ascending : NodeSet.Ascending set
  mem : ∀ id, id ∈ set ↔ p.BindsWhere s condition name id

variable {condition condition' : Lookup → Prop} {set set' : NodeSet}

/-- A stronger condition collects fewer nodes. -/
lemma Collects.subset (h : p.Collects s condition name set) (h' : p.Collects s condition' name set')
    (himp : ∀ f, condition f → condition' f) : set ⊆ set' := by
  intro id hid
  obtain ⟨r, hfits, hinline, hcondition, hbound⟩ := (h.mem id).1 hid
  exact (h'.mem id).2 ⟨r, hfits, hinline, himp _ hcondition, hbound⟩

/-- Conditions that mean the same collect the same set. -/
lemma Collects.ext (h : p.Collects s condition name set) (h' : p.Collects s condition' name set')
    (hiff : ∀ f, condition f ↔ condition' f) : set = set' :=
  h.ascending.ext h'.ascending fun _ =>
    ⟨fun hid => h.subset h' (fun f => (hiff f).1) hid,
      fun hid => h'.subset h (fun f => (hiff f).2) hid⟩

/-- A disjunction collects what the one or the other condition collects. -/
lemma Collects.union (h : p.Collects s condition name set)
    (h' : p.Collects s condition' name set') :
    p.Collects s (fun f => condition f ∨ condition' f) name (NodeSet.ofList (set ++ set')) := by
  refine ⟨NodeSet.ascending_ofList _, fun id => ?_⟩
  rw [NodeSet.mem_ofList, List.mem_append, h.mem, h'.mem, bindsWhere_or]

end PathPattern

/-! ### The sets of a query under a filter -/

namespace Query

variable {s : Store} {q : Query} {c : ChainQuery} {p : PathPattern} {name : String}

/-- The set of nodes that a query binds a variable to, if it can be run and has the variable. -/
def nodesOf (schedule : Schedule) (s : Store) (q : Query) (name : String) : Option NodeSet :=
  (q.bindings schedule s).toOption.bind (fun bound => bound.lookup name)

/-- What a filtered query binds, told of the path and of the filter apart. -/
lemma binds_filtered {filter : Option Expr} {d : ChainQuery}
    (hd : (q.filtered filter).compile = .ok d) (hp : q.path = .ok p) {id : NodeId} :
    d.Binds s name id ↔ p.BindsWhere s (fun f => ∀ e ∈ filter, e.holds s f) name id := by
  obtain ⟨p', item, hp', -, -, -, -, hchain, hpredicate, -⟩ := compile_eq_ok hd
  cases hp.symm.trans hp'
  have hholds : ∀ r, (∀ e ∈ d.predicate, e.holds s (p.chain.lookup r))
      ↔ (∀ e ∈ p.inlinePredicates, e.holds s (p.chain.lookup r))
        ∧ ∀ e ∈ filter, e.holds s (p.chain.lookup r) := by
    intro r
    rw [hpredicate, holds_conjunction, List.forall_mem_append]
    simp [filtered]
  constructor
  · rintro ⟨r, hr, hid⟩
    obtain ⟨hfits, hall⟩ := hr
    rw [hchain] at hfits hall hid
    exact ⟨r, hfits, ((hholds r).1 hall).1, ((hholds r).1 hall).2, hid⟩
  · rintro ⟨r, hfits, hinline, hfilter, hid⟩
    exact ⟨r, ⟨hchain ▸ hfits, hchain ▸ (hholds r).2 ⟨hinline, hfilter⟩⟩, hchain ▸ hid⟩

/-- What an accepted query binds, told of the path and of its own filter apart. -/
lemma binds_iff_bindsWhere (hc : q.compile = .ok c) (hp : q.path = .ok p) {id : NodeId} :
    c.Binds s name id ↔ p.BindsWhere s (fun f => ∀ e ∈ q.filter, e.holds s f) name id :=
  binds_filtered hc hp

/-- **The set of a variable under a filter** holds the nodes that it takes in the rows of which the
filter holds. -/
lemma exists_nodesOf_filtered (hs : s.Indexed) (schedule : Schedule) (hc : q.compile = .ok c)
    (hp : q.path = .ok p) (hname : name ∈ p.nodeVariables) (filter : Option Expr)
    (hallows : ∀ e ∈ filter, p.Allows e) :
    ∃ set, (q.filtered filter).nodesOf schedule s name = some set
      ∧ p.Collects s (fun f => ∀ e ∈ filter, e.holds s f) name set := by
  have hd := compile_filtered hc hp fun e he => (hallows e he).checkFilter
  obtain ⟨bound, hbound, htell⟩ := bindings_tell hs schedule hd hp
  obtain ⟨set, hset, hascending, hmem⟩ := htell.exists_lookup (List.mem_eraseDups.2 hname)
  refine ⟨set, ?_, hascending, fun id => (hmem id).trans (binds_filtered hd hp)⟩
  rw [nodesOf, hbound]
  exact hset

/-- **Filters compose.** In every store that changes make of the empty one, whatever the schedule,
take an accepted query, a variable of its path and two filters that the path allows. Under either
filter the variable has the nodes that it has under the one or under the other; what it has under a
filter and what it has under the negation are together all that it has without a filter; and both
filters leave it the same nodes in either order, which it has under each of them. -/
theorem nodesOf_connectives (hs : s.Reachable) (schedule : Schedule) (hc : q.compile = .ok c)
    (hp : q.path = .ok p) (hname : name ∈ p.nodeVariables) {left right : Expr}
    (hleft : p.Allows left)
    (hright : p.Allows right) :
    ∃ all inLeft inRight outLeft both : NodeSet,
      (q.filtered none).nodesOf schedule s name = some all
      ∧ (q.filtered (some left)).nodesOf schedule s name = some inLeft
      ∧ (q.filtered (some right)).nodesOf schedule s name = some inRight
      ∧ (q.filtered (some (.binary (.connective .or) left right))).nodesOf schedule s name
          = some (NodeSet.ofList (inLeft ++ inRight))
      ∧ (q.filtered (some (.unary .not left))).nodesOf schedule s name = some outLeft
      ∧ NodeSet.ofList (inLeft ++ outLeft) = all
      ∧ (q.filtered (some (.and left right))).nodesOf schedule s name = some both
      ∧ (q.filtered (some (.and right left))).nodesOf schedule s name = some both
      ∧ both ⊆ NodeSet.inter inLeft inRight := by
  have hsome : ∀ e, p.Allows e → ∃ set, (q.filtered (some e)).nodesOf schedule s name = some set
      ∧ p.Collects s (fun f => e.holds s f) name set := by
    intro e he
    simpa using exists_nodesOf_filtered hs.indexed schedule hc hp hname (some e) (by simpa using he)
  obtain ⟨all, hall, hallSet⟩ :=
    exists_nodesOf_filtered hs.indexed schedule hc hp hname none (by simp)
  obtain ⟨inLeft, hinLeft, hinLeftSet⟩ := hsome left hleft
  obtain ⟨inRight, hinRight, hinRightSet⟩ := hsome right hright
  obtain ⟨either, heither, heitherSet⟩ :=
    hsome (.binary (.connective .or) left right) (hleft.binary hright _)
  obtain ⟨outLeft, houtLeft, houtLeftSet⟩ := hsome (.unary .not left) (hleft.unary _)
  obtain ⟨both, hboth, hbothSet⟩ := hsome (.and left right) (hleft.binary hright _)
  obtain ⟨both', hboth', hbothSet'⟩ := hsome (.and right left) (hright.binary hleft _)
  have hunion : either = NodeSet.ofList (inLeft ++ inRight) :=
    heitherSet.ext (hinLeftSet.union hinRightSet) fun _ => Expr.holds_or
  have hcover : NodeSet.ofList (inLeft ++ outLeft) = all := by
    -- without a filter nothing is asked, and of every row the filter holds or its negation
    refine (hinLeftSet.union houtLeftSet).ext hallSet fun f => ⟨fun _ e he => (by cases he),
      fun _ => ?_⟩
    rw [Expr.holds_not_iff]
    exact em _
  have hcomm : both' = both :=
    hbothSet'.ext hbothSet fun _ => by rw [Expr.holds_and, Expr.holds_and, and_comm]
  have hinBoth : both ⊆ NodeSet.inter inLeft inRight := by
    intro id hid
    have hinLeft := hbothSet.subset hinLeftSet (fun _ h => (Expr.holds_and.1 h).1) hid
    have hinRight := hbothSet.subset hinRightSet (fun _ h => (Expr.holds_and.1 h).2) hid
    simpa [NodeSet.inter] using ⟨hinLeft, hinRight⟩
  exact ⟨all, inLeft, inRight, outLeft, both, hall, hinLeft, hinRight, hunion ▸ heither, houtLeft,
    hcover, hboth, hcomm ▸ hboth', hinBoth⟩

/-- A function that calls another, and one that calls itself: being called `main` is asked of nodes,
being its own caller of rows, and the two together leave the callers that each of them leaves. -/
theorem nodesOf_connectives_of_calls :
    let s := Store.run {} [.add (.functionDeclaration "main" "main()"),
      .add (.functionDeclaration "loop" "loop()"), .addEdge ⟨0⟩ ⟨"calls"⟩ ⟨1⟩ .outgoing,
      .addEdge ⟨1⟩ ⟨"calls"⟩ ⟨1⟩ .outgoing]
    let p : PathPattern :=
      { start := { name := some "f" }
        segments := [⟨{ direction := .outgoing }, { name := some "g" }⟩] }
    let q := matching p none "g"
    let left := Expr.equals (.property "f" "name") (.literal (.string "main"))
    let right := Expr.equals (.var "f") (.var "g")
    (∃ c, q.compile = .ok c) ∧ q.path = .ok p ∧ "f" ∈ p.nodeVariables ∧ p.Allows left
      ∧ p.Allows right
      ∧ (q.filtered (some (.binary (.connective .or) left right))).nodesOf {} s "f"
        = some [⟨0⟩, ⟨1⟩]
      ∧ (q.filtered (some (.and left right))).nodesOf {} s "f" = some [] := by
  intro s p q left right
  have hname : "f" ∈ p.nodeVariables := by decide
  have hleft : p.Allows left := ⟨rfl, by decide⟩
  have hright : p.Allows right := ⟨rfl, by decide⟩
  have hmain : (q.filtered (some left)).nodesOf {} s "f" = some [⟨0⟩] := by decide +kernel
  have hloop : (q.filtered (some right)).nodesOf {} s "f" = some [⟨1⟩] := by decide +kernel
  obtain ⟨all, inLeft, inRight, outLeft, both, -, hinLeft, hinRight, hor, -, -, hand, -, hsub⟩ :=
    nodesOf_connectives (q := q) (s := s) ⟨_, rfl⟩ {} rfl rfl hname hleft hright
  obtain rfl : [⟨0⟩] = inLeft := Option.some.inj (hmain.symm.trans hinLeft)
  obtain rfl : [⟨1⟩] = inRight := Option.some.inj (hloop.symm.trans hinRight)
  obtain rfl : both = [] := List.subset_nil.1 hsub
  exact ⟨⟨_, rfl⟩, rfl, hname, hleft, hright, hor, hand⟩

end Query
end CodeGraph
