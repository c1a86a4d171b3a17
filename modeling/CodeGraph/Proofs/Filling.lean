import CodeGraph.Match.Run
import CodeGraph.Proofs.Rows

/-!
Filling the positions of a chain loses no row that fits it.

* `Chain.Fits`: the rows of a store that fit a chain.
* `Filled`, `filled_fillFrom`: what is filled from the candidates of a position: pairs join a
  candidate to the acceptable nodes that the step leads to, and the next candidates are the ends of
  the pairs.
* `threads_fill`: the rows of a filled match are the rows that fit the chain and pass the filters of
  their positions. `fits_of_threads_fill`: they do so whatever the limit.
-/

namespace CodeGraph

/-- A row fits a chain if it gives every position a node of the store that carries its labels, every
step leads from its node to the next, and a variable has one node. -/
structure Chain.Fits (s : Store) (c : Chain) (r : Row) : Prop where
  length_eq : r.length = c.nodes.length
  labels : ∀ (k : Nat) (n : ChainNode) (id : NodeId), c.nodes[k]? = some n → r[k]? = some id →
    ∃ node, s.node? id = some node ∧ node.hasLabels n.labels
  joined : ∀ (k : Nat) (step : ChainStep) (p q : NodeId), c.steps[k]? = some step → r[k]? = some p →
    r[k + 1]? = some q → q ∈ s.farEnds p step.groups step.direction.directions
  agrees : Matched.Agrees c r

/-- A row passes the filter of each of its positions. -/
def Chain.PassesFilter (s : Store) (c : Chain) (filter : Option NodeFilter) (r : Row) : Prop :=
  ∀ (k : Nat) (n : ChainNode) (id : NodeId), c.nodes[k]? = some n → r[k]? = some id →
    ∀ e ∈ n.filterOf filter, e.holds s (lookupOne n.name id)

/-! ### Filling from the candidates of a position -/

/-- What is filled from the candidates of a position, along the steps after it. -/
structure Filled (s : Store) (filter : Option NodeFilter) (candidates : NodeSet)
    (steps : List (ChainStep × ChainNode)) (m : Matched) : Prop where
  positions : m.positions.length = steps.length + 1
  pairs : m.pairs.length = steps.length
  first : m.positions.getD 0 [] = candidates
  later : ∀ k q, q ∈ m.positions.getD (k + 1) [] ↔ ∃ p, (p, q) ∈ m.pairs.getD k []
  joined : ∀ k p q, (p, q) ∈ m.pairs.getD k []
    ↔ p ∈ m.positions.getD k [] ∧ ∃ step next, steps[k]? = some (step, next) ∧ q ∈ step.ends s p
      ∧ accepts s next (next.filterOf filter) q
  ascending : NodeSet.Ascending candidates → ∀ set ∈ m.positions, NodeSet.Ascending set

lemma filled_fillFrom (schedule : Schedule) (s : Store) (filter : Option NodeFilter)
    (candidates : NodeSet) (steps : List (ChainStep × ChainNode)) :
    Filled s filter candidates steps
      ⟨(fillFrom schedule s filter candidates steps).1,
        (fillFrom schedule s filter candidates steps).2⟩ := by
  induction steps generalizing candidates with
  | nil =>
      refine ⟨rfl, rfl, rfl, fun k q => ?_, fun k p q => ?_, fun h set hset => ?_⟩
      · simp [fillFrom]
      · simp [fillFrom]
      · rwa [List.mem_singleton.1 hset]
  | cons head rest ih =>
      obtain ⟨step, next⟩ := head
      let pairs := expand schedule s candidates step next (next.filterOf filter)
      have hrest := ih (NodeSet.ofList (pairs.map Prod.snd))
      refine ⟨?_, ?_, rfl, fun k q => ?_, fun k p q => ?_, fun h set hset => ?_⟩
      · exact congrArg Nat.succ hrest.positions
      · exact congrArg Nat.succ hrest.pairs
      · cases k with
        | zero =>
            have hfirst : (fillFrom schedule s filter candidates ((step, next) :: rest)).1.getD 1 []
                = NodeSet.ofList (pairs.map Prod.snd) := hrest.first
            show q ∈ (fillFrom schedule s filter candidates ((step, next) :: rest)).1.getD 1 []
              ↔ ∃ p, (p, q) ∈ pairs
            rw [hfirst, NodeSet.mem_ofList, List.mem_map]
            exact ⟨fun ⟨p, hp, hq⟩ => ⟨p.1, hq ▸ hp⟩, fun ⟨p, hp⟩ => ⟨(p, q), hp, rfl⟩⟩
        | succ k => exact hrest.later k q
      · cases k with
        | zero =>
            show (p, q) ∈ pairs ↔ p ∈ candidates ∧ _
            rw [mem_expand]
            refine and_congr_right fun _ => ⟨fun h => ⟨step, next, rfl, h⟩, ?_⟩
            rintro ⟨step', next', heq, h⟩
            cases heq
            exact h
        | succ k => exact hrest.joined k p q
      · rcases List.mem_cons.1 hset with rfl | hset
        · exact h
        · exact hrest.ascending (NodeSet.ascending_ofList _) set hset

/-! ### Filling a chain -/

section Fill

variable {s : Store} {c : Chain} {filter : Option NodeFilter} {limit : Option Nat}

/-- Filling a chain fills from the candidates of its first position. -/
lemma exists_filled_fill (schedule : Schedule) (s : Store) (filter : Option NodeFilter)
    (limit : Option Nat) (hfits : c.nodes.length = c.steps.length + 1) :
    ∃ first rest, c.nodes = first :: rest
      ∧ Filled s filter
          (scan schedule s first (first.filterOf filter) (if c.steps.isEmpty then limit else none))
          (c.steps.zip rest) (fill schedule s c filter limit) := by
  cases hnodes : c.nodes with
  | nil => simp [hnodes] at hfits
  | cons first rest =>
      refine ⟨first, rest, rfl, ?_⟩
      simp only [fill, hnodes]
      exact filled_fillFrom schedule s filter _ _

lemma shaped_fill (schedule : Schedule) (hfits : c.nodes.length = c.steps.length + 1) :
    Matched.Shaped c (fill schedule s c filter limit) := by
  obtain ⟨first, rest, hnodes, hfilled⟩ := exists_filled_fill schedule s filter limit hfits
  have hlen : (c.steps.zip rest).length = c.steps.length := by
    rw [hnodes, List.length_cons] at hfits
    rw [List.length_zip]
    omega
  exact ⟨by rw [hfilled.positions, hlen, hfits], by rw [hfilled.pairs, hlen], hfits⟩

lemma ascending_fill (hs : s.Indexed) (schedule : Schedule)
    (hfits : c.nodes.length = c.steps.length + 1) :
    ∀ set ∈ (fill schedule s c filter limit).positions, NodeSet.Ascending set := by
  obtain ⟨first, rest, -, hfilled⟩ := exists_filled_fill schedule s filter limit hfits
  exact hfilled.ascending (ascending_scan hs schedule first _ _)

/-- A position and the step before it, found together. -/
lemma getElem?_zip_steps {first : ChainNode} {rest : List ChainNode}
    (hnodes : c.nodes = first :: rest) {k : Nat} {step : ChainStep} {next : ChainNode} :
    (c.steps.zip rest)[k]? = some (step, next)
      ↔ c.steps[k]? = some step ∧ c.nodes[k + 1]? = some next := by
  rw [List.getElem?_zip_eq_some, hnodes, List.getElem?_cons_succ]

/-- Whatever the limit, a row of a filled match fits the chain and passes the filters of its
positions. -/
lemma fits_of_threads_fill {schedule : Schedule}
    (hfits : c.nodes.length = c.steps.length + 1) {r : Row}
    (h : Matched.Threads c (fill schedule s c filter limit) r) :
    c.Fits s r ∧ c.PassesFilter s filter r := by
  obtain ⟨first, rest, hnodes, hfilled⟩ := exists_filled_fill schedule s filter limit hfits
  have hzero : c.nodes[0]? = some first := by rw [hnodes]; rfl
  -- a candidate is accepted where it stands: by the scan, or by the step before it
  have haccepts : ∀ (k : Nat) n id, c.nodes[k]? = some n → r[k]? = some id →
      accepts s n (n.filterOf filter) id := by
    intro k n id hn hid
    have hmem := h.mem k id hid
    cases k with
    | zero =>
        cases hzero.symm.trans hn
        rw [hfilled.first] at hmem
        exact accepts_of_mem_scan hmem
    | succ k =>
        obtain ⟨p, hp⟩ := (hfilled.later k id).1 hmem
        obtain ⟨-, step, next, hstep, -, haccepts⟩ := (hfilled.joined k p id).1 hp
        cases ((getElem?_zip_steps hnodes).1 hstep).2.symm.trans hn
        exact haccepts
  refine ⟨⟨h.length_eq, fun k n id hn hid => ?_, fun k step p q hstep hp hq => ?_, h.agrees⟩, ?_⟩
  · exact (accepts_iff.1 (haccepts k n id hn hid)).1
  · obtain ⟨-, step', next, hstep', hends, -⟩ := (hfilled.joined k p q).1 (h.joined k p q hp hq)
    cases ((getElem?_zip_steps hnodes).1 hstep').1.symm.trans hstep
    exact hends
  · intro k n id hn hid
    exact (accepts_iff.1 (haccepts k n id hn hid)).2

/-- **The rows of a filled match** are the rows that fit the chain and pass the filters of their
positions. -/
theorem threads_fill (hs : s.Indexed) (schedule : Schedule)
    (hfits : c.nodes.length = c.steps.length + 1) (hlimit : limit = none ∨ c.steps ≠ []) {r : Row} :
    Matched.Threads c (fill schedule s c filter limit) r
      ↔ c.Fits s r ∧ c.PassesFilter s filter r := by
  refine ⟨fits_of_threads_fill hfits, ?_⟩
  obtain ⟨first, rest, hnodes, hfilled⟩ := exists_filled_fill schedule s filter limit hfits
  have hnone : (if c.steps.isEmpty then limit else none) = none := by
    rcases hlimit with rfl | hsteps
    · exact ite_self none
    · rw [if_neg (by simpa using hsteps)]
  rw [hnone] at hfilled
  have hzero : c.nodes[0]? = some first := by rw [hnodes]; rfl
  rintro ⟨h, hpasses⟩
  have haccepts : ∀ (k : Nat) n id, c.nodes[k]? = some n → r[k]? = some id →
      accepts s n (n.filterOf filter) id := fun k n id hn hid =>
    accepts_iff.2 ⟨h.labels k n id hn hid, hpasses k n id hn hid⟩
  have hjoined : ∀ (k : Nat) p q, p ∈ (fill schedule s c filter limit).positions.getD k [] →
      r[k]? = some p → r[k + 1]? = some q → (p, q)
        ∈ (fill schedule s c filter limit).pairs.getD k [] := by
    intro k p q hmem hp hq
    have hk : k + 1 < c.nodes.length := h.length_eq ▸ (List.getElem?_eq_some_iff.1 hq).1
    have hstep : c.steps[k]? = some c.steps[k] := List.getElem?_eq_getElem (by omega)
    have hnext : c.nodes[k + 1]? = some c.nodes[k + 1] := List.getElem?_eq_getElem hk
    exact (hfilled.joined k p q).2 ⟨hmem, _, _, (getElem?_zip_steps hnodes).2 ⟨hstep, hnext⟩,
      h.joined k _ p q hstep hp hq, haccepts (k + 1) _ q hnext hq⟩
  -- the nodes of the row are candidates, from the first position on
  have hmem : ∀ (k : Nat) id, r[k]? = some id →
      id ∈ (fill schedule s c filter limit).positions.getD k [] := by
    intro k
    induction k with
    | zero =>
        intro id hid
        rw [hfilled.first]
        exact (mem_scan hs schedule).2 (haccepts 0 first id hzero hid)
    | succ k ih =>
        intro id hid
        have hk : k + 1 < r.length := (List.getElem?_eq_some_iff.1 hid).1
        have hp : r[k]? = some r[k] := List.getElem?_eq_getElem (by omega)
        exact (hfilled.later k id).2 ⟨r[k], hjoined k _ id (ih _ hp) hp hid⟩
  exact ⟨h.length_eq, hmem, fun k p q hp hq => hjoined k p q (hmem k p hp) hp hq, h.agrees⟩

end Fill
end CodeGraph
