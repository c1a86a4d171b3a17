import CodeGraph.Proofs.Filling
import CodeGraph.Proofs.Lowering

/-!
Matching finds the nodes of the rows that satisfy a chain query, and no others.

* `ChainQuery.Satisfies`: the rows that satisfy a chain query.
* `Question.forall_holds_iff`: a predicate holds of a row if it does in the way in which it is
  asked.
* `Matched.Projects`: the positions of a match hold the nodes of some rows. `projects_of_consistent`
  and `projects_filterRows` give the two ways in which a match comes to hold those of its own rows.
* `ChainQuery.projects_run`: the match of a chain query.
* `Query.run_projects_satisfying_rows`: the match of what is made of a query.
-/

namespace CodeGraph

/-- A row satisfies a chain query if it fits the chain and the predicate holds of it, each variable
looked up at its first position. -/
structure ChainQuery.Satisfies (s : Store) (q : ChainQuery) (r : Row) : Prop where
  fits : q.chain.Fits s r
  holds : ∀ e ∈ q.predicate, e.holds s (q.chain.lookup r)

/-! ### Asking a predicate -/

namespace Question

variable {s : Store} {q : ChainQuery} {r : Row}

/-- A predicate over one variable holds of a row if it holds of the node at each position of the
variable. -/
lemma holds_lookup_iff {e : Expr} {name : String} (hvars : e.vars = [name])
    (hstands : ∃ (k : Nat) (n : ChainNode), q.chain.nodes[k]? = some n ∧ n.name = name)
    (hr : q.chain.Fits s r) :
    e.holds s (q.chain.lookup r) ↔ q.chain.PassesFilter s (some ⟨name, e⟩) r := by
  have hone : ∀ {k : Nat} {n : ChainNode} {id : NodeId}, q.chain.nodes[k]? = some n →
      r[k]? = some id →
      n.name = name → e.holds s (lookupOne n.name id) = e.holds s (q.chain.lookup r) := by
    intro k n id hn hid hname
    refine Expr.holds_congr fun x hx => ?_
    obtain rfl : x = name := by simpa [hvars] using hx
    rw [← hname, Chain.lookup_eq hr.agrees hn, hid]
    simp [lookupOne]
  constructor
  · intro h k n id hn hid e' he'
    have hname : n.name = name ∧ e = e' := by
      by_cases hname : name = n.name
      · exact ⟨hname.symm, by simpa [ChainNode.filterOf, hname] using he'⟩
      · simp [ChainNode.filterOf, hname] at he'
    rw [← hname.2, hone hn hid hname.1]
    exact h
  · intro h
    obtain ⟨k, n, hn, hname⟩ := hstands
    have hk : k < r.length := hr.length_eq ▸ (List.getElem?_eq_some_iff.1 hn).1
    have hid : r[k]? = some r[k] := List.getElem?_eq_getElem hk
    rw [← hone hn hid hname]
    exact h k n _ hn hid e (by simp [ChainNode.filterOf, hname])

/-- A predicate that is never asked holds of no row. -/
lemma not_holds_of_never (h : ofPredicate s q.predicate = never) :
    ¬ ∀ e ∈ q.predicate, e.holds s (q.chain.lookup r) := by
  intro hholds
  cases hpredicate : q.predicate with
  | none => simp [hpredicate, ofPredicate] at h
  | some e =>
      rw [hpredicate, ofPredicate] at h
      split at h
      · rename_i hvars
        have hconst : e.holds s (q.chain.lookup r) = e.holdsConstantly s :=
          Expr.holds_congr (by simp [hvars])
        have htrue := hholds e (by simp [hpredicate])
        rw [hconst] at htrue
        simp [htrue] at h
      · cases h
      · cases h

/-- **A predicate holds of a row in the way in which it is asked**: of the nodes of its only
variable, or of the row itself. -/
lemma forall_holds_iff (hq : q.WellFormed) (hr : q.chain.Fits s r)
    (h : ofPredicate s q.predicate ≠ never) :
    (∀ e ∈ q.predicate, e.holds s (q.chain.lookup r))
      ↔ q.chain.PassesFilter s (ofPredicate s q.predicate).nodeFilter? r
        ∧ ∀ e ∈ (ofPredicate s q.predicate).rowPredicate?, e.holds s (q.chain.lookup r) := by
  have hnone : q.chain.PassesFilter s none r := by
    intro k n id _ _ e he
    cases he
  cases hpredicate : q.predicate with
  | none => simpa [ofPredicate, nodeFilter?, rowPredicate?] using hnone
  | some e =>
      rw [hpredicate, ofPredicate] at h
      simp only [Option.mem_some_iff, forall_eq']
      rw [ofPredicate]
      split
      · rename_i hvars
        have hconst : e.holds s (q.chain.lookup r) = e.holdsConstantly s :=
          Expr.holds_congr (by simp [hvars])
        by_cases htrue : e.holdsConstantly s
        · simpa [hconst, htrue, nodeFilter?, rowPredicate?] using hnone
        · simp [hvars, htrue] at h
      · rename_i name hvars
        have hstands := hq.vars e (by simp [hpredicate]) name (by simp [hvars])
        simpa [nodeFilter?, rowPredicate?] using holds_lookup_iff hvars hstands hr
      · simpa [nodeFilter?, rowPredicate?] using fun _ => hnone

end Question

/-! ### Variables that stand at one position each -/

namespace Chain

lemma length_foldl_noteName_le (nodes : List ChainNode) (names : List String) :
    (nodes.foldl (fun names n => Expr.noteName names n.name) names).length
      ≤ names.length + nodes.length := by
  induction nodes generalizing names with
  | nil => simp
  | cons n rest ih =>
      have hrest := ih (Expr.noteName names n.name)
      have hone : (Expr.noteName names n.name).length ≤ names.length + 1 := by
        rw [Expr.noteName]
        split <;> simp
      rw [List.foldl_cons, List.length_cons]
      omega

/-- Names are noted once, so as many as there are positions are noted only if all differ. -/
lemma nodup_of_length_foldl_noteName (nodes : List ChainNode) {names : List String}
    (hnames : names.Nodup) (h : names.length + nodes.length
      ≤ (nodes.foldl (fun names n => Expr.noteName names n.name) names).length) :
    (names ++ nodes.map ChainNode.name).Nodup := by
  induction nodes generalizing names with
  | nil => simpa using hnames
  | cons n rest ih =>
      rw [List.foldl_cons, List.length_cons] at h
      by_cases hmem : n.name ∈ names
      · have hle := length_foldl_noteName_le rest (Expr.noteName names n.name)
        rw [Expr.noteName, if_pos hmem] at h hle
        omega
      · have hnoted := Expr.nodup_noteName hnames n.name
        rw [Expr.noteName, if_neg hmem] at h hnoted
        have hlen : (names ++ [n.name]).length + rest.length
            = names.length + (rest.length + 1) := by
          rw [List.length_append, List.length_singleton]
          omega
        simpa using ih hnoted (hlen ▸ h)

/-- Where all variables differ, each stands at one position. -/
lemma eq_of_name_eq {c : Chain} (h : (c.nodes.map ChainNode.name).Nodup) {i j : Nat}
    {n n' : ChainNode}
    (hn : c.nodes[i]? = some n) (hn' : c.nodes[j]? = some n')
    (hname : n.name = n'.name) : i = j := by
  have hi : i < (c.nodes.map ChainNode.name).length := by
    rw [List.length_map]
    exact (List.getElem?_eq_some_iff.1 hn).1
  exact (List.getElem?_inj hi h).1 (by simp [List.getElem?_map, hn, hn', hname])

/-- Where all variables differ, every row agrees with itself. -/
lemma agrees_of_nodup {c : Chain} (h : (c.nodes.map ChainNode.name).Nodup) (r : Row) :
    Matched.Agrees c r :=
  fun _ _ _ _ hn hn' hname => by rw [eq_of_name_eq h hn hn' hname]

lemma nodup_of_not_reused {c : Chain} (h : ¬ c.hasReusedVariables) :
    (c.nodes.map ChainNode.name).Nodup := by
  have hle : c.nodes.length ≤ c.vars.length := by
    simpa [hasReusedVariables] using h
  exact nodup_of_length_foldl_noteName c.nodes List.nodup_nil (by simpa [vars] using hle)

/-- Where no variable is repeated, every row agrees with itself. -/
lemma agrees_of_not_reused {c : Chain} (h : ¬ c.hasReusedVariables) (r : Row) :
    Matched.Agrees c r :=
  agrees_of_nodup (nodup_of_not_reused h) r

end Chain

/-! ### Matches that hold the nodes of rows -/

namespace Matched

/-- The positions of a match hold the nodes of some rows, in ascending order. -/
structure Projects (c : Chain) (m : Matched) (rows : Row → Prop) : Prop where
  length_eq : m.positions.length = c.nodes.length
  ascending : ∀ set ∈ m.positions, NodeSet.Ascending set
  mem : ∀ k id, id ∈ m.positions.getD k [] ↔ ∃ r, rows r ∧ r[k]? = some id

variable {c : Chain} {m : Matched} {s : Store}

lemma Projects.congr {rows rows' : Row → Prop} (h : Projects c m rows)
    (hrows : ∀ r, rows r ↔ rows' r) :
    Projects c m rows' := by
  obtain rfl : rows = rows' := funext fun r => propext (hrows r)
  exact h

lemma projects_empty {rows : Row → Prop} (h : ∀ r, ¬ rows r) : Projects c (empty c) rows where
  length_eq := by simp [empty]
  ascending set hset := by
    rw [List.eq_of_mem_replicate hset]
    exact List.Pairwise.nil
  mem k id := by
    rw [mem_getD]
    simp [empty, List.getElem?_replicate, h]

lemma PartOf.ascending {m' : Matched} (h : m'.PartOf m)
    (hm : ∀ set ∈ m.positions, NodeSet.Ascending set) :
    ∀ set ∈ m'.positions, NodeSet.Ascending set :=
  h.positions.ascending hm

/-- Where no variable is repeated, a consistent match holds the nodes of its rows: every candidate
is on a path through all positions, and every such path is a row. -/
lemma projects_of_consistent (hm : Shaped c m) (h : Consistent c m)
    (hreused : ¬ c.hasReusedVariables) (hascending : ∀ set ∈ m.positions, NodeSet.Ascending set) :
    Projects c m (Threads c m) where
  length_eq := hm.positions
  ascending := hascending
  mem k id := by
    constructor
    · intro hid
      obtain ⟨r, hlen, hr, halong⟩ := h.exists_along hm hid
      exact ⟨r, halong.threads hlen (Chain.agrees_of_not_reused hreused r), hr⟩
    · rintro ⟨r, hr, hid⟩
      exact hr.mem k id hid

/-- When rows are asked, the match that is left holds the nodes of the rows that pass: pruning loses
none of them, and finds no other node. -/
lemma projects_filterRows (schedule : Schedule) (predicate : Option Expr) (hm : Shaped c m)
    (h : Consistent c m) :
    Projects c ((m.filterRows schedule s c predicate).prune c)
      (fun r => Threads c m r ∧ ∀ e ∈ predicate, e.holds s (c.lookup r)) := by
  have hasked : Shaped c (m.filterRows schedule s c predicate) := shaped_filterRows schedule h hm
  have hpart := prune_partOf hasked
  refine ⟨(hpart.shaped hasked).positions, hpart.ascending (ascending_filterRows schedule),
    fun k id => ?_⟩
  constructor
  · intro hid
    exact (mem_filterRows schedule h hm).1 (hpart.mem_of_mem hid)
  · rintro ⟨r, hr, hid⟩
    have hthreads : Threads c (m.filterRows schedule s c predicate) r := by
      refine ⟨hr.1.length_eq, fun i p hp => ?_, fun i p q hp hq => ?_, hr.1.agrees⟩
      · exact (mem_filterRows schedule h hm).2 ⟨r, hr, hp⟩
      · rw [filterRows_eq]
        exact hr.1.joined i p q hp hq
    exact (threads_prune hasked hthreads).mem k id hid

end Matched

/-! ### The match of a chain query -/

namespace ChainQuery

variable {s : Store} {q : ChainQuery}

/-- The way in which the predicate of a chain query is asked. -/
def question (s : Store) (q : ChainQuery) : Question := Question.ofPredicate s q.predicate

/-- The match of a chain query before any row is asked: filled, and pruned if there is a step. -/
def prunedMatch (schedule : Schedule) (s : Store) (q : ChainQuery) : Matched :=
  let filled := fill schedule s q.chain (q.question s).nodeFilter? q.limit
  if q.chain.steps.isEmpty then filled else filled.prune q.chain

/-- Pruning or not, the match is consistent and has lost no row of what was filled. -/
lemma prunedMatch_spec (schedule : Schedule) (s : Store)
    (hfits : q.chain.nodes.length = q.chain.steps.length + 1) :
    (q.prunedMatch schedule s).PartOf (fill schedule s q.chain (q.question s).nodeFilter? q.limit)
      ∧ Matched.Consistent q.chain (q.prunedMatch schedule s)
      ∧ ∀ r, Matched.Threads q.chain (q.prunedMatch schedule s) r
        ↔ Matched.Threads q.chain
          (fill schedule s q.chain (q.question s).nodeFilter? q.limit) r := by
  have hshaped :
      Matched.Shaped q.chain (fill schedule s q.chain (q.question s).nodeFilter? q.limit) :=
    shaped_fill schedule hfits
  by_cases hsteps : q.chain.steps = []
  · have hpruned : q.prunedMatch schedule s
        = fill schedule s q.chain (q.question s).nodeFilter? q.limit := by
      simp [prunedMatch, hsteps]
    rw [hpruned]
    exact ⟨.refl _, Matched.consistent_of_steps_eq_nil hshaped hsteps, fun r => Iff.rfl⟩
  · have hpruned : q.prunedMatch schedule s
        = (fill schedule s q.chain (q.question s).nodeFilter? q.limit).prune q.chain := by
      simp [prunedMatch, hsteps]
    have hpart := Matched.prune_partOf hshaped
    rw [hpruned]
    exact ⟨hpart, Matched.consistent_prune hshaped,
      fun r => ⟨fun hr => hr.of_partOf hpart, Matched.threads_prune hshaped⟩⟩

/-- A chain query is run by pruning, and rows are asked if they have to be. -/
lemma run_eq (schedule : Schedule) (hwell : q.chain.isWellFormed) (h : q.question s ≠ .never) :
    q.run schedule s
      = if (q.question s).rowPredicate?.isSome || q.chain.hasReusedVariables
        then ((q.prunedMatch schedule s).filterRows schedule s q.chain
          (q.question s).rowPredicate?).prune q.chain
        else q.prunedMatch schedule s := by
  rw [prunedMatch, run, hwell]
  rw [question] at h ⊢
  cases hquestion : Question.ofPredicate s q.predicate with
  | never => exact absurd hquestion h
  | always => rfl
  | ofNode filter => rfl
  | ofRow predicate => rfl

/-- The match of a chain query that is asked at all holds the nodes of the rows that were filled and
pass the row predicate. -/
lemma projects_asked (hs : s.Indexed) (schedule : Schedule)
    (hfits : q.chain.nodes.length = q.chain.steps.length + 1) (hasked : q.question s ≠ .never) :
    Matched.Projects q.chain (q.run schedule s) fun r =>
      Matched.Threads q.chain (fill schedule s q.chain (q.question s).nodeFilter? q.limit) r
        ∧ ∀ e ∈ (q.question s).rowPredicate?, e.holds s (q.chain.lookup r) := by
  obtain ⟨hpart, hconsistent, hthreads⟩ := prunedMatch_spec schedule s hfits
  have hshaped := hpart.shaped (shaped_fill schedule hfits)
  have hrows : ∀ r, (Matched.Threads q.chain (q.prunedMatch schedule s) r
      ∧ ∀ e ∈ (q.question s).rowPredicate?, e.holds s (q.chain.lookup r))
      ↔ Matched.Threads q.chain (fill schedule s q.chain (q.question s).nodeFilter? q.limit) r
        ∧ ∀ e ∈ (q.question s).rowPredicate?, e.holds s (q.chain.lookup r) :=
          fun r => by rw [hthreads]
  rw [run_eq schedule (beq_iff_eq.2 hfits) hasked]
  split
  · exact (Matched.projects_filterRows schedule _ hshaped hconsistent).congr hrows
  · rename_i hplain
    obtain ⟨hrow, hreused⟩ :
        (q.question s).rowPredicate? = none ∧ q.chain.hasReusedVariables = false := by
      simpa using hplain
    have hascending := hpart.ascending (ascending_fill hs schedule hfits)
    have hown := Matched.projects_of_consistent hshaped hconsistent (by simp [hreused]) hascending
    refine hown.congr fun r => ?_
    rw [← hrows r, hrow]
    simp

/-- A chain query whose predicate is decided against it matches nothing. -/
lemma run_of_never (schedule : Schedule) (hfits : q.chain.nodes.length = q.chain.steps.length + 1)
    (hnever : q.question s = .never) : q.run schedule s = .empty q.chain := by
  have hwell : q.chain.isWellFormed := beq_iff_eq.2 hfits
  rw [question] at hnever
  rw [run, hwell, hnever]
  rfl

/-- **The match of a chain query holds the nodes of the rows that satisfy it**, whichever way the
predicate is asked. -/
lemma projects_run (hs : s.Indexed) (schedule : Schedule) (hq : q.WellFormed)
    (hlimit : q.limit = none ∨ q.chain.steps ≠ []) :
    Matched.Projects q.chain (q.run schedule s) (q.Satisfies s) := by
  by_cases hnever : q.question s = .never
  · rw [run_of_never schedule hq.fits hnever]
    exact Matched.projects_empty fun r hr => Question.not_holds_of_never hnever hr.holds
  · refine (projects_asked hs schedule hq.fits hnever).congr fun r => ?_
    rw [threads_fill hs schedule hq.fits hlimit, and_assoc]
    constructor
    · rintro ⟨hfits, hasked⟩
      exact ⟨hfits, (Question.forall_holds_iff hq hfits hnever).2 hasked⟩
    · rintro ⟨hfits, hholds⟩
      exact ⟨hfits, (Question.forall_holds_iff hq hfits hnever).1 hholds⟩

end ChainQuery

/-! ### The match of a query -/

namespace Query

/-- **Matching is exact.** In every store that changes make of the empty one, whatever the schedule,
the match of what is made of a query has a list for each position: the nodes that the rows which
satisfy the query have there, in ascending order and each once. So either no position has a node or
every one has. -/
theorem run_projects_satisfying_rows {s : Store} (hs : s.Reachable) (schedule : Schedule)
    {q : Query} {c : ChainQuery} (hc : q.compile = .ok c)
    (hlimit : c.limit = none ∨ c.chain.steps ≠ []) :
    (c.run schedule s).positions.length = c.chain.nodes.length
      ∧ (∀ (k : Nat) (set : NodeSet), (c.run schedule s).positions[k]? = some set →
          NodeSet.Ascending set ∧ ∀ id, id ∈ set ↔ ∃ r, c.Satisfies s r ∧ r[k]? = some id)
      ∧ ((∀ set ∈ (c.run schedule s).positions, set = [])
          ∨ ∀ set ∈ (c.run schedule s).positions, set ≠ []) := by
  have hrun := c.projects_run hs.indexed schedule (wellFormed_of_compile hc) hlimit
  have hset : ∀ (k : Nat) (set : NodeSet), (c.run schedule s).positions[k]? = some set →
      ∀ id, id ∈ set ↔ ∃ r, c.Satisfies s r ∧ r[k]? = some id := by
    intro k set hk id
    rw [← hrun.mem k id, mem_getD, hk]
    simp
  refine ⟨hrun.length_eq,
    fun k set hk => ⟨hrun.ascending set (List.mem_of_getElem? hk), hset k set hk⟩, ?_⟩
  by_cases hrow : ∃ r, c.Satisfies s r
  · obtain ⟨r, hr⟩ := hrow
    refine .inr fun set hmem => ?_
    obtain ⟨k, hk⟩ := List.mem_iff_getElem?.1 hmem
    have hlen : k < r.length := by
      rw [hr.fits.length_eq, ← hrun.length_eq]
      exact (List.getElem?_eq_some_iff.1 hk).1
    exact List.ne_nil_of_mem ((hset k set hk r[k]).2 ⟨r, hr, List.getElem?_eq_getElem hlen⟩)
  · refine .inl fun set hmem => List.eq_nil_iff_forall_not_mem.2 fun id hid => ?_
    obtain ⟨k, hk⟩ := List.mem_iff_getElem?.1 hmem
    obtain ⟨r, hr, -⟩ := (hset k set hk id).1 hid
    exact hrow ⟨r, hr⟩

/-- Two functions that call each other and one that calls itself: a query for another function that
is called by a function and calls it back finds the first two, for which rows have to be asked. -/
theorem run_projects_satisfying_rows_of_calls :
    let s := Store.run {} [.add { kind := .functionDeclaration },
      .add { kind := .functionDeclaration }, .add { kind := .functionDeclaration },
      .addEdge ⟨0⟩ ⟨"calls"⟩ ⟨1⟩ .outgoing, .addEdge ⟨1⟩ ⟨"calls"⟩ ⟨0⟩ .outgoing,
      .addEdge ⟨2⟩ ⟨"calls"⟩ ⟨2⟩ .outgoing]
    let q := matching
      { start := { name := some "f" }
        segments := [⟨{ direction := .outgoing }, { name := some "g" }⟩,
          ⟨{ direction := .outgoing }, { name := some "f" }⟩] }
      (some (.binary (.comparison .ne) (.var "f") (.var "g"))) "g"
    ∃ c, q.compile = .ok c ∧ (c.limit = none ∨ c.chain.steps ≠ [])
      ∧ ∀ id, id ∈ [(⟨0⟩ : NodeId), ⟨1⟩] ↔ ∃ r, c.Satisfies s r ∧ r[1]? = some id := by
  intro s q
  refine ⟨_, rfl, .inl rfl, fun id => ?_⟩
  have hexact := run_projects_satisfying_rows (q := q) (s := s) ⟨_, rfl⟩ {} rfl (.inl rfl)
  exact (hexact.2.1 1 [⟨0⟩, ⟨1⟩] (by decide +kernel)).2 id

end Query
end CodeGraph
