import CodeGraph.Proofs.FarEnds

/-!
The pairs of a match, told by its positions.

Pairs are found while positions are filled, go when pruning drops one of their ends, and are left
alone when rows are asked, which prunes again. Through all of this no pair is lost whose ends both
stay and none stays that has lost an end, so what is left between two positions is what the step
joins between them, in the order in which it was found.

* `ChainStep.joins`: the pairs that a step joins between two sets of nodes.
* `Matched.Restricts`: a match that has fewer candidates than another one and has all its pairs
  between them. `round_restricts`, `prune_restricts`, `filterRows_restricts`: everything that is
  done to a match restricts it.
* `ChainQuery.pairs_run`: the pairs of a chain query that is run.
* `Query.run_pairs_exact`: the pairs of what is made of a query.
-/

namespace CodeGraph

/-! ### What a step joins -/

/-- The pairs that a step joins between two sets: from each node of the first, in ascending order,
to the members of the second that it leads to, in the order in which they are met. -/
def ChainStep.joins (step : ChainStep) (s : Store) (before after : NodeSet) :
    List (NodeId × NodeId) :=
  before.flatMap fun p => ((step.ends s p).filter (· ∈ after)).map fun q => (p, q)

lemma flatMap_filter {α β : Type} (p : α → Bool) (f : α → List β) (xs : List α) :
    (xs.filter p).flatMap f = xs.flatMap fun x => if p x then f x else [] := by
  induction xs with
  | nil => rfl
  | cons x rest ih =>
      rw [List.flatMap_cons, ← ih]
      cases hx : p x <;> simp [hx]

section Joins

variable {step : ChainStep} {s : Store} {before after : NodeSet}

lemma ChainStep.mem_joins {p q : NodeId} :
    (p, q) ∈ step.joins s before after ↔ p ∈ before ∧ q ∈ after ∧ q ∈ step.ends s p := by
  simp [joins, and_comm]

lemma ChainStep.nodup_ends (step : ChainStep) (s : Store) (p : NodeId) : (step.ends s p).Nodup := by
  rw [ends]
  cases hp : s.node? p with
  | none => simp [Store.farEnds_of_node?_eq_none hp]
  | some n =>
      rw [Store.farEnds_eq_unseen_trail hp]
      exact (Store.firstOccurrences_unseen _).nodup

/-- A pair is joined once: by its first node, and from there by the only place of its second. -/
lemma ChainStep.nodup_joins (hbefore : before.Nodup) : (step.joins s before after).Nodup := by
  refine List.nodup_flatMap.2 ⟨fun p _ => ?_, hbefore.imp fun {p p'} hne pair hpair hpair' => ?_⟩
  · exact ((step.nodup_ends s p).filter _).map fun q q' hq => (Prod.ext_iff.1 hq).2
  · obtain ⟨q, -, rfl⟩ := List.mem_map.1 hpair
    obtain ⟨q', -, heq⟩ := List.mem_map.1 hpair'
    exact hne (Prod.ext_iff.1 heq).1.symm

/-- Pairs that were found among more nodes than are left, of which those are kept whose ends are
left. -/
lemma ChainStep.filter_expand_eq_joins {schedule : Schedule} {previous : NodeSet} {next : ChainNode}
    {filter : Option Expr} (hprevious : NodeSet.Ascending previous)
    (hbefore : NodeSet.Ascending before)
    (hsub : ∀ p ∈ before, p ∈ previous) (haccepts : ∀ q ∈ after, accepts s next filter q) :
    (expand schedule s previous step next filter).filter (fun p => p.1 ∈ before ∧ p.2 ∈ after)
      = step.joins s before after := by
  have hleft : previous.filter (· ∈ before) = before :=
    (hprevious.sublist List.filter_sublist).ext hbefore fun p => by simpa using hsub p
  rw [expand_eq, List.filter_flatMap, joins]
  conv_rhs => rw [← hleft, flatMap_filter]
  refine List.flatMap_congr fun p _ => ?_
  rw [List.filter_map, List.filter_filter]
  by_cases hp : p ∈ before
  · rw [if_pos (by simpa using hp)]
    refine congrArg _ (List.filter_congr fun q _ => ?_)
    by_cases hq : q ∈ after
    · simp [hp, hq, haccepts q hq]
    · simp [hq]
  · simp [hp]

end Joins

/-- A predicate with at most one variable is not asked of rows. -/
lemma Question.rowPredicate?_eq_none (s : Store) {predicate : Option Expr}
    (h : ∀ e ∈ predicate, e.vars.length ≤ 1) : (ofPredicate s predicate).rowPredicate? = none := by
  cases predicate with
  | none => rfl
  | some e =>
      have hlen := h e rfl
      rw [ofPredicate]
      split
      · split <;> rfl
      · rfl
      · rename_i hnil hone
        obtain ⟨name, hvars⟩ :=
          List.length_eq_one_iff.1 (le_antisymm hlen (List.length_pos_iff.2 hnil))
        exact absurd hvars (hone name)

namespace Matched

variable {c : Chain} {m m' m'' : Matched} {s : Store} {k : Nat}

/-! ### Restricting a match -/

/-- Whether both ends of a pair of the `k`-th step are candidates. -/
def within (m : Matched) (k : Nat) (p : NodeId × NodeId) : Bool :=
  p.1 ∈ m.positions.getD k [] ∧ p.2 ∈ m.positions.getD (k + 1) []

/-- A match restricts another one if it has no further candidates, and has the same pairs between
those that it has. -/
structure Restricts (m m' : Matched) : Prop where
  mem_of_mem : ∀ k id, id ∈ m.positions.getD k [] → id ∈ m'.positions.getD k []
  pairs_eq : ∀ k, (m.pairs.getD k []).filter (m.within k) = (m'.pairs.getD k []).filter (m.within k)

/-- Of fewer candidates fewer pairs are kept, whether or not the others are kept first. -/
lemma filter_within_filter_within
    (h : ∀ k id, id ∈ m.positions.getD k [] → id ∈ m'.positions.getD k [])
    (pairs : List (NodeId × NodeId)) :
    (pairs.filter (m'.within k)).filter (m.within k) = pairs.filter (m.within k) := by
  rw [List.filter_filter]
  refine List.filter_congr fun p _ => ?_
  rw [Bool.and_eq_left_iff_imp]
  intro hp
  obtain ⟨hfirst, hsecond⟩ := of_decide_eq_true hp
  exact decide_eq_true ⟨h k _ hfirst, h (k + 1) _ hsecond⟩

lemma Restricts.refl (m : Matched) : m.Restricts m := ⟨fun _ _ => id, fun _ => rfl⟩

lemma Restricts.trans (h : m.Restricts m') (h' : m'.Restricts m'') : m.Restricts m'' where
  mem_of_mem k id hid := h'.mem_of_mem k id (h.mem_of_mem k id hid)
  pairs_eq k := by
    rw [h.pairs_eq, ← filter_within_filter_within h.mem_of_mem, h'.pairs_eq,
      filter_within_filter_within h.mem_of_mem]

/-- A round keeps all pairs between the candidates that it is given, so also between those that it
leaves. -/
lemma round_restricts (h : Shaped c m) : (round c m).Restricts m where
  mem_of_mem _ _ hid := (round_partOf h).mem_of_mem hid
  pairs_eq k := by
    have hlen : m.positions.length = m.pairs.length + 1 := by rw [h.positions, h.pairs, h.fits]
    have hpairs : (round c m).pairs.getD k [] = (m.pairs.getD k []).filter (m.within k) :=
      getD_keepPairs hlen k
    rw [hpairs, filter_within_filter_within fun _ _ => (round_partOf h).mem_of_mem]

/-- **Pruning restricts a match.** -/
lemma prune_restricts (h : Shaped c m) : (prune c m).Restricts m :=
  settle_induction (P := fun m' => m'.Restricts m) (fun _ hm' hrestricts =>
    (round_restricts hm').trans hrestricts) h
    (.refl m) _

/-- Asking rows restricts a match: it leaves the pairs alone. -/
lemma filterRows_restricts (schedule : Schedule) (predicate : Option Expr) (h : Consistent c m)
    (hm : Shaped c m) :
    (m.filterRows schedule s c predicate).Restricts m where
  mem_of_mem k id hid := by
    obtain ⟨r, ⟨hthreads, -⟩, hr⟩ := (mem_filterRows schedule h hm).1 hid
    exact hthreads.mem k id hr
  pairs_eq k := by rw [filterRows_eq]

/-! ### The pairs of a restricted match -/

/-- A pair of a consistent match has lost no end. -/
lemma Consistent.filter_within (h : Consistent c m) (k : Nat) :
    (m.pairs.getD k []).filter (m.within k) = m.pairs.getD k [] :=
  List.filter_eq_self.2 fun p hp => decide_eq_true (h.ends k p.1 p.2 hp)

/-- A consistent match that restricts another one has no pair that the other has not. -/
lemma Restricts.mem_pairs (h : m.Restricts m') (hm : Consistent c m) {p : NodeId × NodeId}
    (hp : p ∈ m.pairs.getD k []) : p ∈ m'.pairs.getD k [] := by
  rw [← hm.filter_within, h.pairs_eq] at hp
  exact (List.mem_filter.1 hp).1

lemma ascending_getD (h : ∀ set ∈ m.positions, NodeSet.Ascending set) (k : Nat) :
    NodeSet.Ascending (m.positions.getD k []) := by
  rw [List.getD_eq_getElem?_getD]
  cases hset : m.positions[k]? with
  | none => exact List.Pairwise.nil
  | some set => exact h set (List.mem_of_getElem? hset)

/-- In a consistent match a position before a step holds the first ends of its pairs. -/
lemma Consistent.eq_ofList_fst (h : Consistent c m) (hk : k < c.steps.length)
    (hascending : NodeSet.Ascending (m.positions.getD k [])) :
    m.positions.getD k [] = NodeSet.ofList ((m.pairs.getD k []).map Prod.fst) := by
  refine hascending.ext (NodeSet.ascending_ofList _) fun id => ?_
  rw [NodeSet.mem_ofList, List.mem_map]
  constructor
  · intro hid
    obtain ⟨q, hq⟩ := h.after k id hid hk
    exact ⟨(id, q), hq, rfl⟩
  · rintro ⟨p, hp, rfl⟩
    exact (h.ends k p.1 p.2 hp).1

/-- In a consistent match a position after a step holds the second ends of its pairs. -/
lemma Consistent.eq_ofList_snd (h : Consistent c m)
    (hascending : NodeSet.Ascending (m.positions.getD (k + 1) [])) :
    m.positions.getD (k + 1) [] = NodeSet.ofList ((m.pairs.getD k []).map Prod.snd) := by
  refine hascending.ext (NodeSet.ascending_ofList _) fun id => ?_
  rw [NodeSet.mem_ofList, List.mem_map]
  constructor
  · intro hid
    obtain ⟨p, hp⟩ := h.before k id hid
    exact ⟨(p, id), hp, rfl⟩
  · rintro ⟨p, hp, rfl⟩
    exact (h.ends k p.1 p.2 hp).2

end Matched

/-! ### The pairs of a match that was filled -/

section Fill

variable {s : Store} {c : Chain} {filter : Option NodeFilter} {limit : Option Nat} {k : Nat}

/-- The pairs of a step are found from the candidates of the position before it. -/
lemma getD_pairs_fillFrom (schedule : Schedule) (s : Store) (filter : Option NodeFilter)
    (candidates : NodeSet) {steps : List (ChainStep × ChainNode)} {step : ChainStep}
    {next : ChainNode} (hstep : steps[k]? = some (step, next)) :
    (fillFrom schedule s filter candidates steps).2.getD k []
      = expand schedule s ((fillFrom schedule s filter candidates steps).1.getD k []) step next
          (next.filterOf filter) := by
  induction steps generalizing candidates k with
  | nil => cases hstep
  | cons head rest ih =>
      cases k with
      | zero =>
          cases hstep
          rfl
      | succ k => exact ih _ hstep

/-- **What is left of the pairs of a step** when a match that was filled is restricted to a
consistent one. -/
lemma Matched.Restricts.pairs_eq_joins {m : Matched} {schedule : Schedule} (hs : s.Indexed)
    (hfits : c.nodes.length = c.steps.length + 1) (h : m.Restricts (fill schedule s c filter limit))
    (hconsistent : Matched.Consistent c m) (hascending : ∀ set ∈ m.positions, NodeSet.Ascending set)
    {step : ChainStep} (hstep : c.steps[k]? = some step) :
    m.pairs.getD k [] = step.joins s (m.positions.getD k []) (m.positions.getD (k + 1) []) := by
  obtain ⟨first, rest, hnodes, hfilled⟩ := exists_filled_fill schedule s filter limit hfits
  have hk : k < c.steps.length := (List.getElem?_eq_some_iff.1 hstep).1
  have hnext : c.nodes[k + 1]? = some c.nodes[k + 1] := List.getElem?_eq_getElem (by omega)
  have hzip := (getElem?_zip_steps hnodes).2 ⟨hstep, hnext⟩
  have hfound : (fill schedule s c filter limit).pairs.getD k []
      = expand schedule s ((fill schedule s c filter limit).positions.getD k []) step c.nodes[k + 1]
          (c.nodes[k + 1].filterOf filter) := by
    simp only [fill, hnodes]
    simpa only [hnodes] using getD_pairs_fillFrom schedule s filter _ hzip
  have haccepts : ∀ q ∈ m.positions.getD (k + 1) [],
      accepts s c.nodes[k + 1] (c.nodes[k + 1].filterOf filter) q := by
    intro q hq
    obtain ⟨p, hp⟩ := (hfilled.later k q).1 (h.mem_of_mem (k + 1) q hq)
    obtain ⟨-, step', next, hzip', -, haccepts⟩ := (hfilled.joined k p q).1 hp
    cases hzip.symm.trans hzip'
    exact haccepts
  have hfirst : NodeSet.Ascending ((fill schedule s c filter limit).positions.getD k []) :=
    Matched.ascending_getD (ascending_fill hs schedule hfits) k
  calc m.pairs.getD k []
      = (m.pairs.getD k []).filter (m.within k) := (hconsistent.filter_within k).symm
    _ = ((fill schedule s c filter limit).pairs.getD k []).filter (m.within k) := h.pairs_eq k
    _ = step.joins s (m.positions.getD k []) (m.positions.getD (k + 1) []) := by
        rw [hfound]
        exact ChainStep.filter_expand_eq_joins hfirst (Matched.ascending_getD hascending k)
          (h.mem_of_mem k) haccepts

end Fill

/-! ### The pairs of a query -/

namespace ChainQuery

variable {s : Store} {q : ChainQuery} {k : Nat}

lemma prunedMatch_restricts (schedule : Schedule) (s : Store)
    (hfits : q.chain.nodes.length = q.chain.steps.length + 1) :
    (q.prunedMatch schedule s).Restricts
      (fill schedule s q.chain (q.question s).nodeFilter? q.limit) := by
  rw [prunedMatch]
  split
  · exact .refl _
  · exact Matched.prune_restricts (shaped_fill schedule hfits)

/-- Running a chain query restricts what was filled, to a consistent match. -/
lemma run_restricts (schedule : Schedule) (hfits : q.chain.nodes.length = q.chain.steps.length + 1)
    (hasked : q.question s ≠ .never) :
    Matched.Shaped q.chain (q.run schedule s) ∧ Matched.Consistent q.chain (q.run schedule s)
      ∧ (q.run schedule s).Restricts
        (fill schedule s q.chain (q.question s).nodeFilter? q.limit) := by
  obtain ⟨hpart, hconsistent, -⟩ := prunedMatch_spec schedule s hfits
  have hshaped := hpart.shaped (shaped_fill schedule hfits)
  have hrestricts := q.prunedMatch_restricts schedule s hfits
  rw [run_eq schedule (beq_iff_eq.2 hfits) hasked]
  split
  · have hrows : Matched.Shaped q.chain
        ((q.prunedMatch schedule s).filterRows schedule s q.chain (q.question s).rowPredicate?) :=
      Matched.shaped_filterRows schedule hconsistent hshaped
    refine ⟨(Matched.prune_partOf hrows).shaped hrows, Matched.consistent_prune hrows, ?_⟩
    exact ((Matched.prune_restricts hrows).trans
      (Matched.filterRows_restricts schedule _ hconsistent hshaped)).trans
      hrestricts
  · exact ⟨hshaped, hconsistent, hrestricts⟩

lemma shaped_run (schedule : Schedule) (hfits : q.chain.nodes.length = q.chain.steps.length + 1) :
    Matched.Shaped q.chain (q.run schedule s) := by
  by_cases hasked : q.question s = .never
  · rw [run_of_never schedule hfits hasked]
    exact ⟨List.length_replicate, List.length_replicate, hfits⟩
  · exact (run_restricts schedule hfits hasked).1

/-- Where all variables differ and no row has to be asked, every pair that is left is one of a row
that satisfies the chain query. -/
lemma exists_satisfies_of_mem_pairs {schedule : Schedule} (hq : q.WellFormed)
    (hasked : q.question s ≠ .never) (hnames : (q.chain.nodes.map ChainNode.name).Nodup)
    (hvars : ∀ e ∈ q.predicate, e.vars.length ≤ 1) {a b : NodeId}
    (hpair : (a, b) ∈ (q.run schedule s).pairs.getD k []) :
    ∃ r, q.Satisfies s r ∧ r[k]? = some a ∧ r[k + 1]? = some b := by
  obtain ⟨hshaped, hconsistent, hrestricts⟩ := run_restricts schedule hq.fits hasked
  obtain ⟨r, hlength, ha, hb, halong⟩ := hconsistent.exists_along_pair hshaped hpair
  have hthreads :
      Matched.Threads q.chain (fill schedule s q.chain (q.question s).nodeFilter? q.limit) r := by
    refine ⟨hlength, fun i x hx => ?_, fun i x y hx hy => ?_, Chain.agrees_of_nodup hnames r⟩
    · exact hrestricts.mem_of_mem i x (by simpa using halong.mem i x hx)
    · exact hrestricts.mem_pairs hconsistent (by simpa using halong.joined i x y hx hy)
  obtain ⟨hr, hpasses⟩ := fits_of_threads_fill hq.fits hthreads
  refine ⟨r, ⟨hr, (Question.forall_holds_iff hq hr hasked).2 ⟨hpasses, fun e he => ?_⟩⟩, ha, hb⟩
  rw [Question.rowPredicate?_eq_none s hvars] at he
  cases he

end ChainQuery

/-- A list holds the pairs that a step joins between two sets, in their order and each once, and no
node of the sets is without a pair. -/
structure ChainStep.Spans (step : ChainStep) (s : Store) (before after : NodeSet)
    (pairs : List (NodeId × NodeId)) :
    Prop where
  eq_joins : pairs = step.joins s before after
  mem_iff : ∀ p q, (p, q) ∈ pairs ↔ p ∈ before ∧ q ∈ after ∧ q ∈ step.ends s p
  nodup : pairs.Nodup
  before_eq : before = NodeSet.ofList (pairs.map Prod.fst)
  after_eq : after = NodeSet.ofList (pairs.map Prod.snd)

namespace ChainQuery

variable {s : Store} {q : ChainQuery} {k : Nat}

/-- The pairs of a step span the positions that it joins. -/
lemma spans_run (hs : s.Indexed) (schedule : Schedule)
    (hfits : q.chain.nodes.length = q.chain.steps.length + 1) {step : ChainStep}
    (hstep : q.chain.steps[k]? = some step) :
    step.Spans s ((q.run schedule s).positions.getD k [])
      ((q.run schedule s).positions.getD (k + 1) [])
      ((q.run schedule s).pairs.getD k []) := by
  by_cases hasked : q.question s = .never
  · have hnone : ∀ {α : Type} (n i : Nat), (List.replicate n ([] : List α)).getD i [] = [] := by
      intro α n i
      cases h : (List.replicate n ([] : List α))[i]? <;> grind
    rw [run_of_never schedule hfits hasked]
    simp only [Matched.empty, hnone]
    exact ⟨rfl, by simp, List.nodup_nil, rfl, rfl⟩
  · obtain ⟨-, hconsistent, hrestricts⟩ := run_restricts schedule hfits hasked
    have hascending := (projects_asked hs schedule hfits hasked).ascending
    have hbefore := Matched.ascending_getD hascending k
    have hjoins := hrestricts.pairs_eq_joins hs hfits hconsistent hascending hstep
    refine ⟨hjoins, fun p p' => hjoins ▸ ChainStep.mem_joins, ?_,
      hconsistent.eq_ofList_fst (List.getElem?_eq_some_iff.1 hstep).1 hbefore,
      hconsistent.eq_ofList_snd (Matched.ascending_getD hascending (k + 1))⟩
    rw [hjoins]
    exact ChainStep.nodup_joins (hbefore.imp fun hlt heq => (heq ▸ hlt).false)

end ChainQuery

namespace Query

/-- **The pairs that survive are exact.** In every store that changes make of the empty one,
whatever the schedule, the pairs of each step of a query are all that the step joins between the two
positions that are left, in the order of the first and then of the far ends, each once, and the
positions hold no node that has no pair. Where all variables differ and the predicate is over one of
them at most, each of the pairs stands in a row that satisfies the query. -/
theorem run_pairs_exact {s : Store} (hs : s.Reachable) (schedule : Schedule) {q : Query}
    {c : ChainQuery} (hc : q.compile = .ok c) {k : Nat} {step : ChainStep}
    (hstep : c.chain.steps[k]? = some step) :
    ∃ before after pairs, (c.run schedule s).positions[k]? = some before
      ∧ (c.run schedule s).positions[k + 1]? = some after
      ∧ (c.run schedule s).pairs[k]? = some pairs
      ∧ step.Spans s before after pairs
      ∧ ((c.chain.nodes.map ChainNode.name).Nodup → (∀ e ∈ c.predicate, e.vars.length ≤ 1) →
        ∀ p ∈ pairs, ∃ r, c.Satisfies s r ∧ r[k]? = some p.1 ∧ r[k + 1]? = some p.2) := by
  have hq := wellFormed_of_compile hc
  have hshaped := c.shaped_run (s := s) schedule hq.fits
  have hk : k < c.chain.steps.length := (List.getElem?_eq_some_iff.1 hstep).1
  have hfits := hq.fits
  have hpositions := hshaped.positions
  have hspans := c.spans_run hs.indexed schedule hq.fits hstep
  obtain ⟨before, hbefore⟩ : ∃ set, (c.run schedule s).positions[k]? = some set :=
    ⟨_, List.getElem?_eq_getElem (by omega)⟩
  obtain ⟨after, hafter⟩ : ∃ set, (c.run schedule s).positions[k + 1]? = some set :=
    ⟨_, List.getElem?_eq_getElem (by omega)⟩
  obtain ⟨pairs, hpairs⟩ : ∃ pairs, (c.run schedule s).pairs[k]? = some pairs :=
    ⟨_, List.getElem?_eq_getElem (by rw [hshaped.pairs]; exact hk)⟩
  simp only [List.getD_eq_getElem?_getD, hbefore, hafter, hpairs, Option.getD_some] at hspans
  refine ⟨before, after, pairs, hbefore, hafter, hpairs, hspans, fun hnames hvars p hp => ?_⟩
  by_cases hasked : c.question s = .never
  · rw [ChainQuery.run_of_never schedule hq.fits hasked] at hpairs
    rw [List.eq_of_mem_replicate (List.mem_of_getElem? hpairs)] at hp
    cases hp
  · exact ChainQuery.exists_satisfies_of_mem_pairs hq hasked hnames hvars
      (mem_getD.2 ⟨pairs, hpairs, hp⟩)

/-- Three functions of which the first calls the other two and the second calls the last: only the
calls of the last are left when it is asked for by its name, and each is one that a row shows. -/
theorem run_pairs_exact_of_calls :
    let s := Store.run {} [.add (.functionDeclaration "a" "a()"),
      .add (.functionDeclaration "b" "b()"), .add (.functionDeclaration "main" "main()"),
      .addEdge ⟨0⟩ ⟨"calls"⟩ ⟨1⟩ .outgoing, .addEdge ⟨0⟩ ⟨"calls"⟩ ⟨2⟩ .outgoing,
      .addEdge ⟨1⟩ ⟨"calls"⟩ ⟨2⟩ .outgoing]
    let q := matching
      { start := { name := some "f" }
        segments := [⟨{ direction := .outgoing }, { name := some "g" }⟩] }
      (some (.equals (.property "g" "name") (.literal (.string "main")))) "g"
    ∃ c step, q.compile = .ok c ∧ c.chain.steps[0]? = some step
      ∧ (c.run {} s).positions = [[⟨0⟩, ⟨1⟩], [⟨2⟩]]
      ∧ (c.run {} s).pairs = [[(⟨0⟩, ⟨2⟩), (⟨1⟩, ⟨2⟩)]]
      ∧ step.Spans s [⟨0⟩, ⟨1⟩] [⟨2⟩] [(⟨0⟩, ⟨2⟩), (⟨1⟩, ⟨2⟩)]
      ∧ ∃ r, c.Satisfies s r ∧ r[0]? = some ⟨1⟩ ∧ r[1]? = some ⟨2⟩ := by
  intro s q
  obtain ⟨before, after, pairs, hbefore, hafter, hpairs, hspans, hrows⟩ :=
    run_pairs_exact (s := s) (q := q) ⟨_, rfl⟩ {} rfl (k := 0) rfl
  refine ⟨_, _, rfl, rfl, by decide +kernel, by decide +kernel, ?_⟩
  cases hbefore.symm.trans (by decide +kernel : _ = some [⟨0⟩, ⟨1⟩])
  cases hafter.symm.trans (by decide +kernel : _ = some [⟨2⟩])
  cases hpairs.symm.trans (by decide +kernel : _ = some [(⟨0⟩, ⟨2⟩), (⟨1⟩, ⟨2⟩)])
  exact ⟨hspans, hrows (by decide) (by decide) (⟨1⟩, ⟨2⟩) (by simp)⟩

end Query
end CodeGraph
