import CodeGraph.Proofs.Matching

/-!
Chain queries that no query was turned into.

Whoever puts a chain query together may write any predicate, also one over variables that stand at
no position. Such a variable is null in every row. A predicate over one variable alone is asked of
the candidates of that variable, so it is asked of none if the variable stands nowhere, and a match
finds what it would find without it.

* `ChainQuery.Overlooks`: a predicate over one variable that stands nowhere, false where the
  variable is null.
* `ChainQuery.run_fail_closed`: apart from that, every node of a match is one of a row that
  satisfies the query. `ChainQuery.run_overlooked`: the exception.
-/

namespace CodeGraph

/-- A variable that stands at no position is bound to nothing. -/
lemma Chain.lookup_of_notMem {c : Chain} {name : String}
    (h : name ∉ c.nodes.map ChainNode.name) (r : Row) :
    c.lookup r name = none := by
  have hnone : c.positionsOf name = [] := by
    refine List.eq_nil_iff_forall_not_mem.2 fun k hk => ?_
    obtain ⟨n, hn, rfl⟩ := mem_positionsOf.1 hk
    exact h (List.mem_map_of_mem (List.mem_of_getElem? hn))
  rw [lookup, hnone]
  rfl

/-! ### Filters that concern no position -/

/-- Positions are filled the same by filters that agree on each of them. -/
lemma fill_congr {s : Store} {c : Chain} {f f' : Option NodeFilter} (schedule : Schedule)
    (h : ∀ n ∈ c.nodes, n.filterOf f = n.filterOf f') (limit : Option Nat) :
    fill schedule s c f limit = fill schedule s c f' limit := by
  have hlater : ∀ (steps : List (ChainStep × ChainNode)) (candidates : NodeSet),
      (∀ p ∈ steps, p.2.filterOf f = p.2.filterOf f') →
      fillFrom schedule s f candidates steps = fillFrom schedule s f' candidates steps := by
    intro steps
    induction steps with
    | nil => exact fun _ _ => rfl
    | cons p rest ih =>
        intro candidates hsteps
        rw [List.forall_mem_cons] at hsteps
        simp only [fillFrom, hsteps.1, ih _ hsteps.2]
  rw [fill, fill]
  split
  · rfl
  · rename_i first rest hnodes
    rw [hnodes, List.forall_mem_cons] at h
    simp only [h.1, hlater (c.steps.zip rest) _ fun p hp => h.2 p.2 (List.of_mem_zip hp).2]

namespace ChainQuery

variable {s : Store} {q : ChainQuery} {r : Row}

/-- The predicate is over one variable only, which stands at no position, and is false where it is
null. -/
def Overlooks (s : Store) (q : ChainQuery) : Prop :=
  ∃ e ∈ q.predicate, ∃ name, e.vars = [name] ∧ name ∉ q.chain.nodes.map ChainNode.name
    ∧ e.holdsConstantly s = false

/-- A predicate over one variable that stands nowhere is as true as it is where the variable is
null. -/
lemma holds_lookup_of_notMem {e : Expr} {name : String} (hvars : e.vars = [name])
    (hname : name ∉ q.chain.nodes.map ChainNode.name) :
    e.holds s (q.chain.lookup r) = e.holdsConstantly s := by
  refine Expr.holds_congr fun x hx => ?_
  obtain rfl : x = name := by simpa [hvars] using hx
  exact Chain.lookup_of_notMem hname r

/-- A predicate that is not overlooked holds of the rows that pass the way in which it is asked. -/
lemma forall_holds_of_asked (hq : ¬ q.Overlooks s) (hr : q.chain.Fits s r)
    (hasked : q.question s ≠ .never) (hfilter : q.chain.PassesFilter s (q.question s).nodeFilter? r)
    (hrow : ∀ e ∈ (q.question s).rowPredicate?, e.holds s (q.chain.lookup r)) :
    ∀ e ∈ q.predicate, e.holds s (q.chain.lookup r) := by
  intro e he
  rw [question, Option.mem_def.1 he, Question.ofPredicate] at hasked hfilter hrow
  split at hasked
  · rename_i hvars
    have hconst : e.holds s (q.chain.lookup r) = e.holdsConstantly s :=
      Expr.holds_congr (by simp [hvars])
    rw [hconst]
    by_contra hfalse
    exact hasked (if_neg hfalse)
  · rename_i name hvars
    rw [hvars] at hfilter
    by_cases hname : name ∈ q.chain.nodes.map ChainNode.name
    · obtain ⟨n, hn, rfl⟩ := List.mem_map.1 hname
      obtain ⟨k, hk⟩ := List.mem_iff_getElem?.1 hn
      exact (Question.holds_lookup_iff hvars ⟨k, n, hk, rfl⟩ hr).2 hfilter
    · rw [holds_lookup_of_notMem hvars hname]
      by_contra hfalse
      exact hq ⟨e, he, name, hvars, hname, by simpa using hfalse⟩
  · rename_i hnil hone
    split at hrow
    · exact absurd ‹_› hnil
    · exact absurd ‹_› (hone _)
    · exact hrow e rfl

/-- A chain query without its predicate. -/
def unfiltered (q : ChainQuery) : ChainQuery := { q with predicate := none }

/-- An overlooked predicate filters nothing. -/
lemma run_of_overlooks (schedule : Schedule)
    (hfits : q.chain.nodes.length = q.chain.steps.length + 1)
    (hq : q.Overlooks s) : q.run schedule s = q.unfiltered.run schedule s := by
  obtain ⟨e, he, name, hvars, hname, -⟩ := hq
  have hquestion : q.question s = .ofNode ⟨name, e⟩ := by
    rw [question, Option.mem_def.1 he, Question.ofPredicate, hvars]
  have hfilter : ∀ n ∈ q.chain.nodes, n.filterOf (some ⟨name, e⟩) = n.filterOf none := by
    intro n hn
    have hne : name ≠ n.name := fun heq => hname (heq ▸ List.mem_map_of_mem hn)
    exact if_neg hne
  have hpruned : q.prunedMatch schedule s = q.unfiltered.prunedMatch schedule s := by
    simp only [prunedMatch, hquestion, Question.nodeFilter?, fill_congr schedule hfilter]
    rfl
  have hnever : q.unfiltered.question s ≠ .never := by
    intro h
    cases h
  rw [run_eq schedule (beq_iff_eq.2 hfits) (by simp [hquestion]),
    run_eq (q := q.unfiltered) schedule (beq_iff_eq.2 hfits) hnever, hpruned, hquestion]
  rfl

/-- **A match is fail closed**, whatever the schedule, the limit and the variables of the predicate:
every node at a position is the one that a row has there which fits the chain and for which the
predicate holds, a variable that stands nowhere being null, so a predicate that holds of no row
leaves nothing. One predicate is overlooked: over one variable only, which stands nowhere, and false
where it is null. With it a match is that without a predicate, though no row satisfies it. -/
theorem run_fail_closed (hs : s.Reachable) (schedule : Schedule)
    (hfits : q.chain.nodes.length = q.chain.steps.length + 1) :
    (¬ q.Overlooks s →
        (∀ (k : Nat) (set : NodeSet), (q.run schedule s).positions[k]? = some set →
          ∀ id ∈ set, ∃ r, q.Satisfies s r ∧ r[k]? = some id)
        ∧ ((∀ r, q.chain.Fits s r → ∃ e ∈ q.predicate, e.holds s (q.chain.lookup r) = false) →
          ∀ set ∈ (q.run schedule s).positions, set = []))
      ∧ (q.Overlooks s → q.run schedule s = q.unfiltered.run schedule s ∧ ∀ r,
        ¬ q.Satisfies s r) := by
  refine ⟨fun hq => ?_, fun hq => ⟨run_of_overlooks schedule hfits hq, fun r hr => ?_⟩⟩
  · have hrow : ∀ (k : Nat) (set : NodeSet), (q.run schedule s).positions[k]? = some set →
        ∀ id ∈ set, ∃ r, q.Satisfies s r ∧ r[k]? = some id := by
      intro k set hset id hid
      have hmem : id ∈ (q.run schedule s).positions.getD k [] := by
        rwa [List.getD_eq_getElem?_getD, hset]
      by_cases hnever : q.question s = .never
      · rw [run_of_never schedule hfits hnever, mem_getD] at hmem
        obtain ⟨set', hset', hid'⟩ := hmem
        rw [List.eq_of_mem_replicate (List.mem_of_getElem? hset')] at hid'
        cases hid'
      · obtain ⟨r, ⟨hthreads, hasked⟩, hrk⟩ :=
          ((projects_asked hs.indexed schedule hfits hnever).mem k id).1 hmem
        obtain ⟨hr, hpasses⟩ := fits_of_threads_fill hfits hthreads
        exact ⟨r, ⟨hr, forall_holds_of_asked hq hr hnever hpasses hasked⟩, hrk⟩
    refine ⟨hrow, fun hfalse set hmem => List.eq_nil_iff_forall_not_mem.2 fun id hid => ?_⟩
    obtain ⟨k, hk⟩ := List.mem_iff_getElem?.1 hmem
    obtain ⟨r, hr, -⟩ := hrow k set hk id hid
    obtain ⟨e, he, hfalse⟩ := hfalse r hr.fits
    exact Bool.false_ne_true (hfalse.symm.trans (hr.holds e he))
  · obtain ⟨e, he, name, hvars, hname, hfalse⟩ := hq
    have hholds := hr.holds e he
    rw [holds_lookup_of_notMem hvars hname, hfalse] at hholds
    cases hholds

/-- Callers of a function of a name, or of anything if another function had that name: no position
is for the other one, so only the callers of the first are found. -/
theorem run_fail_closed_of_calls :
    let s := Store.run {} [.add (.functionDeclaration "main" "main()"),
      .add (.functionDeclaration "print" "print()"), .add (.functionDeclaration "log" "log()"),
      .addEdge ⟨0⟩ ⟨"calls"⟩ ⟨1⟩ .outgoing, .addEdge ⟨0⟩ ⟨"calls"⟩ ⟨2⟩ .outgoing]
    let q : ChainQuery :=
      { chain :=
          { nodes := [{ name := "f" }, { name := "g" }], steps := [{ direction := .outgoing }] }
        predicate := some (.binary (.connective .or)
          (.equals (.property "h" "name") (.literal (.string "print")))
          (.equals (.property "g" "name") (.literal (.string "print"))))
        returned := "f", column := "f" }
    s.Reachable ∧ q.chain.nodes.length = q.chain.steps.length + 1 ∧ ¬ q.Overlooks s
      ∧ (q.run {} s).positions = [[⟨0⟩], [⟨1⟩]] ∧ ∃ r, q.Satisfies s r ∧ r[1]? = some ⟨1⟩ := by
  intro s q
  have hvars : ∀ e ∈ q.predicate, e.vars = ["h", "g"] := by
    rintro e ⟨⟩
    decide
  have hasked : ¬ q.Overlooks s := by
    rintro ⟨e, he, name, hname, -⟩
    rw [hvars e he] at hname
    cases hname
  have hpositions : (q.run {} s).positions = [[⟨0⟩], [⟨1⟩]] := by decide +kernel
  have hrows := ((run_fail_closed (s := s) (q := q) ⟨_, rfl⟩ {} rfl).1 hasked).1
  exact ⟨⟨_, rfl⟩, rfl, hasked, hpositions,
    hrows 1 [⟨1⟩] (by rw [hpositions]; rfl) ⟨1⟩ List.mem_cons_self⟩

/-- All functions, though the only variable of the predicate stands nowhere and has no name that it
could equal. -/
theorem run_overlooked :
    let s := Store.run {} [.add (.functionDeclaration "main" "main()")]
    let q : ChainQuery :=
      { chain := { nodes := [{ name := "f" }], steps := [] }
        predicate := some (.equals (.property "g" "name") (.literal (.string "main")))
        returned := "f", column := "f" }
    s.Reachable ∧ q.chain.nodes.length = q.chain.steps.length + 1
      ∧ (∀ r, ∀ e ∈ q.predicate, e.holds s (q.chain.lookup r) = false)
      ∧ (q.run {} s).positions = [[⟨0⟩]] ∧ ¬ ∃ r, q.Satisfies s r ∧ r[0]? = some ⟨0⟩ := by
  intro s q
  have hfalse : ∀ r, ∀ e ∈ q.predicate, e.holds s (q.chain.lookup r) = false := by
    rintro r e ⟨⟩
    have hvars : (Expr.equals (.property "g" "name") (.literal (.string "main"))).vars
        = ["g"] := by decide
    exact (holds_lookup_of_notMem hvars (by decide)).trans (by decide +kernel)
  refine ⟨⟨_, rfl⟩, rfl, hfalse, by decide +kernel, ?_⟩
  rintro ⟨r, hr, -⟩
  exact Bool.false_ne_true ((hfalse r _ rfl).symm.trans (hr.holds _ rfl))

end ChainQuery
end CodeGraph
