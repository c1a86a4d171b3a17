import CodeGraph.Match.Rows
import CodeGraph.Proofs.Candidates

/-!
Pruning takes away what no row needs, and nothing else.

* `mem_keepPairs`, `mem_keepNodes`, `mem_shareNodes`: what each of the three demands keeps.
  `getD_keepPairs` and `getElem?_keepNodes` say it of the lists themselves.
* `PartOf`: the matches that are left when candidates and pairs are taken away; every round leaves
  one.
* `settle_of_lt`, `prune_stable`: the rounds end at a match that a round does not change.
* `Threads`: the rows of a match. `threads_round`, `threads_prune`: no row of a match is lost.
* `Consistent.exists_along`, `Consistent.exists_along_pair`: in a match that a round does not
  change, every candidate and every pair is on a path through all positions.
-/

namespace CodeGraph

/-- The members of the list at a place; beyond the end there is none. -/
lemma mem_getD {α : Type} {lists : List (List α)} {k : Nat} {x : α} :
    x ∈ lists.getD k [] ↔ ∃ xs, lists[k]? = some xs ∧ x ∈ xs := by
  rw [List.getD_eq_getElem?_getD]
  cases lists[k]? <;> simp

/-! ### Thinned lists -/

/-- Lists are thinned if members are taken away from each of them. -/
def Thinned {α : Type} (xs ys : List (List α)) : Prop := List.Forall₂ List.Sublist xs ys

namespace Thinned

variable {α : Type} {xs ys zs : List (List α)}

lemma refl (xs : List (List α)) : Thinned xs xs :=
  List.forall₂_same.2 fun x _ => List.Sublist.refl x

lemma trans (h : Thinned xs ys) (h' : Thinned ys zs) : Thinned xs zs := by
  induction h generalizing zs with
  | nil => exact h'
  | cons hxy _ ih =>
      obtain ⟨z, rest, hyz, hrest, rfl⟩ := List.forall₂_cons_left_iff.1 h'
      exact .cons (hxy.trans hyz) (ih hrest)

lemma sublist_getD (h : Thinned xs ys) (k : Nat) : (xs.getD k []).Sublist (ys.getD k []) := by
  induction h generalizing k with
  | nil => simp
  | cons hxy _ ih =>
      cases k with
      | zero => simpa using hxy
      | succ k => simpa using ih k

lemma length_flatten_le (h : Thinned xs ys) : xs.flatten.length ≤ ys.flatten.length := by
  induction h with
  | nil => exact Nat.le_refl _
  | cons hxy _ ih =>
      have hlen := hxy.length_le
      simp only [List.flatten_cons, List.length_append]
      omega

/-- Nothing is taken away if the number of members stays. -/
lemma eq_of_length_flatten_eq (h : Thinned xs ys)
    (hlength : xs.flatten.length = ys.flatten.length) :
    xs = ys := by
  induction h with
  | nil => rfl
  | cons hxy hrest ih =>
      have hlen := hxy.length_le
      have hle := length_flatten_le hrest
      simp only [List.flatten_cons, List.length_append] at hlength
      rw [hxy.eq_of_length (by omega), ih (by omega)]

lemma ascending {xs ys : List NodeSet} (h : Thinned xs ys)
    (hys : ∀ set ∈ ys, NodeSet.Ascending set) :
    ∀ set ∈ xs, NodeSet.Ascending set := by
  induction h with
  | nil => exact hys
  | cons hxy _ ih =>
      rw [List.forall_mem_cons] at hys ⊢
      exact ⟨hys.1.sublist hxy, ih hys.2⟩

end Thinned

namespace Matched

variable {c : Chain} {m m' : Matched}

/-! ### What the demands keep -/

/-- A pair is kept if both its ends are. -/
lemma getD_keepPairs {positions : List NodeSet} {pairs : List (List (NodeId × NodeId))}
    (h : positions.length = pairs.length + 1) (k : Nat) :
    (keepPairs positions pairs).getD k []
      = (pairs.getD k []).filter fun p => p.1 ∈ positions.getD k []
        ∧ p.2 ∈ positions.getD (k + 1) [] := by
  induction pairs generalizing positions k with
  | nil => cases positions <;> simp [keepPairs]
  | cons first rest ih =>
      obtain _ | ⟨previous, _ | ⟨next, positions⟩⟩ := positions
      · simp at h
      · simp at h
      · cases k with
        | zero => simp [keepPairs]
        | succ k => exact @ih (next :: positions) (by simpa using h) k

lemma mem_keepPairs {positions : List NodeSet} {pairs : List (List (NodeId × NodeId))}
    (h : positions.length = pairs.length + 1) {k : Nat} {p : NodeId × NodeId} :
    p ∈ (keepPairs positions pairs).getD k []
      ↔ p ∈ pairs.getD k [] ∧ p.1 ∈ positions.getD k [] ∧ p.2 ∈ positions.getD (k + 1) [] := by
  rw [getD_keepPairs h, List.mem_filter, decide_eq_true_iff]

/-- The pairs of the step before a position; `before` stands in for the step before the first. -/
def stepBefore (before : Option (List (NodeId × NodeId))) (pairs : List (List (NodeId × NodeId))) :
    Nat → Option (List (NodeId × NodeId))
  | 0 => before
  | k + 1 => pairs[k]?

/-- What is kept at a position, told by the pairs of the step before it and of the step after it. -/
lemma getElem?_keepNodes {before : Option (List (NodeId × NodeId))} {positions : List NodeSet}
    {pairs : List (List (NodeId × NodeId))} (h : positions.length = pairs.length + 1) (k : Nat) :
    (keepNodes before positions pairs)[k]?
      = (positions[k]?).map fun set =>
        let left := (stepBefore before pairs k).elim set fun l => NodeSet.inter set (l.map Prod.snd)
        (pairs[k]?).elim left fun l => NodeSet.inter left (l.map Prod.fst) := by
  induction positions generalizing before pairs k with
  | nil => simp at h
  | cons set positions ih =>
      cases pairs with
      | nil =>
          obtain rfl : positions = [] := by simpa using h
          cases k with
          | zero => cases before <;> rfl
          | succ k => simp [keepNodes]
      | cons after rest =>
          cases k with
          | zero => cases before <;> rfl
          | succ k =>
              have hstep : stepBefore (some after) rest k
                  = stepBefore before (after :: rest) (k + 1) := by
                cases k <;> rfl
              simpa [keepNodes, hstep] using @ih (some after) rest (by simpa using h) k

/-- A node is kept if the steps on both its sides have a pair at it. -/
lemma mem_keepNodes {before : Option (List (NodeId × NodeId))} {positions : List NodeSet}
    {pairs : List (List (NodeId × NodeId))} (h : positions.length = pairs.length + 1) {k : Nat}
    {id : NodeId} :
    id ∈ (keepNodes before positions pairs).getD k []
      ↔ id ∈ positions.getD k [] ∧ (∀ l ∈ stepBefore before pairs k, id ∈ l.map Prod.snd)
        ∧ ∀ l ∈ pairs[k]?, id ∈ l.map Prod.fst := by
  rw [List.getD_eq_getElem?_getD, getElem?_keepNodes h, List.getD_eq_getElem?_getD]
  cases positions[k]? with
  | none => simp
  | some set =>
      cases stepBefore before pairs k <;> cases pairs[k]? <;> simp [NodeSet.inter, and_comm]

/-- A candidate is kept if there is a pair before it, unless it is at the first position, and one
after it, unless it is at the last. -/
lemma mem_keepNodes_of_pairs {positions : List NodeSet} {pairs : List (List (NodeId × NodeId))}
    (h : positions.length = pairs.length + 1) {k : Nat} {id : NodeId}
    (hid : id ∈ positions.getD k [])
    (hbefore : ∀ i, k = i + 1 → ∃ p, (p, id) ∈ pairs.getD i [])
    (hafter : k < pairs.length → ∃ q, (id, q) ∈ pairs.getD k []) :
    id ∈ (keepNodes none positions pairs).getD k [] := by
  refine (mem_keepNodes h).2 ⟨hid, fun l hl => ?_, fun l hl => ?_⟩
  · cases k with
    | zero => cases hl
    | succ k =>
        obtain ⟨p, hp⟩ := hbefore k rfl
        obtain ⟨l', hl', hpair⟩ := mem_getD.1 hp
        cases hl'.symm.trans hl
        exact List.mem_map.2 ⟨_, hpair, rfl⟩
  · obtain ⟨q, hq⟩ := hafter (List.getElem?_eq_some_iff.1 hl).1
    obtain ⟨l', hl', hpair⟩ := mem_getD.1 hq
    cases hl'.symm.trans hl
    exact List.mem_map.2 ⟨_, hpair, rfl⟩

/-- A candidate is kept if all positions of its variable have it. -/
lemma mem_shareNodes {positions : List NodeSet} (h : positions.length = c.nodes.length) {k : Nat}
    {id : NodeId} (hid : id ∈ positions.getD k [])
    (hshared : ∀ i n n', c.nodes[k]? = some n → c.nodes[i]? = some n' → n'.name = n.name →
      id ∈ positions.getD i []) : id ∈ (shareNodes c positions).getD k [] := by
  rw [shareNodes]
  split
  · obtain ⟨set, hset, hmem⟩ := mem_getD.1 hid
    have hk : k < positions.length := (List.getElem?_eq_some_iff.1 hset).1
    obtain ⟨n, hn⟩ : ∃ n, c.nodes[k]? = some n := ⟨_, List.getElem?_eq_getElem (h ▸ hk)⟩
    have hzip : (c.nodes.zip positions)[k]? = some (n, set) :=
      List.getElem?_zip_eq_some.2 ⟨hn, hset⟩
    refine mem_getD.2 ⟨_, by rw [List.getElem?_map, hzip]; rfl, List.mem_filter.2 ⟨hmem, ?_⟩⟩
    refine List.all_eq_true.2 fun other hother => decide_eq_true ?_
    obtain ⟨q, hq, rfl⟩ := List.mem_map.1 hother
    obtain ⟨hqmem, hname⟩ := List.mem_filter.1 hq
    obtain ⟨i, hi⟩ := List.mem_iff_getElem?.1 hqmem
    obtain ⟨hni, hseti⟩ := List.getElem?_zip_eq_some.1 hi
    obtain ⟨set', hset', hmem'⟩ := mem_getD.1 (hshared i n q.1 hn hni (of_decide_eq_true hname))
    rwa [Option.some.inj (hseti.symm.trans hset')]
  · exact hid

/-! ### What is left of a match -/

/-- A match has a set for each position of a chain and a list of pairs for each of its steps. -/
structure Shaped (c : Chain) (m : Matched) : Prop where
  positions : m.positions.length = c.nodes.length
  pairs : m.pairs.length = c.steps.length
  fits : c.nodes.length = c.steps.length + 1

/-- A match is part of another if it is left when candidates and pairs are taken away. -/
structure PartOf (m m' : Matched) : Prop where
  positions : Thinned m.positions m'.positions
  pairs : Thinned m.pairs m'.pairs

lemma PartOf.refl (m : Matched) : m.PartOf m := ⟨.refl _, .refl _⟩

lemma PartOf.trans {m₁ m₂ m₃ : Matched} (h : m₁.PartOf m₂) (h' : m₂.PartOf m₃) : m₁.PartOf m₃ :=
  ⟨h.positions.trans h'.positions, h.pairs.trans h'.pairs⟩

lemma PartOf.shaped (h : m.PartOf m') (hm : Shaped c m') : Shaped c m where
  positions := h.positions.length_eq.trans hm.positions
  pairs := h.pairs.length_eq.trans hm.pairs
  fits := hm.fits

lemma PartOf.mem_of_mem (h : m.PartOf m') {k : Nat} {id : NodeId}
    (hid : id ∈ m.positions.getD k []) :
    id ∈ m'.positions.getD k [] :=
  (h.positions.sublist_getD k).subset hid

lemma PartOf.size_le (h : m.PartOf m') : m.size ≤ m'.size :=
  Nat.add_le_add h.positions.length_flatten_le h.pairs.length_flatten_le

/-- A part of a match that has its size is the match. -/
lemma PartOf.eq_of_size_eq (h : m.PartOf m') (hsize : m.size = m'.size) : m = m' := by
  have hpositions := h.positions.length_flatten_le
  have hpairs := h.pairs.length_flatten_le
  simp only [size] at hsize
  have h₁ : m.positions = m'.positions := h.positions.eq_of_length_flatten_eq (by omega)
  have h₂ : m.pairs = m'.pairs := h.pairs.eq_of_length_flatten_eq (by omega)
  cases m
  cases m'
  simp_all

lemma keepPairs_thinned (positions : List NodeSet) (pairs : List (List (NodeId × NodeId))) :
    Thinned (keepPairs positions pairs) pairs := by
  fun_induction keepPairs positions pairs with
  | case1 previous next positions pairs rest ih => exact .cons List.filter_sublist ih
  | case2 => exact .refl _

lemma keepNodes_thinned (before : Option (List (NodeId × NodeId))) (positions : List NodeSet)
    (pairs : List (List (NodeId × NodeId))) :
    Thinned (keepNodes before positions pairs) positions := by
  induction positions generalizing before pairs with
  | nil => cases pairs <;> exact .nil
  | cons set positions ih =>
      cases pairs with
      | nil =>
          cases before with
          | none => exact Thinned.refl _
          | some pairs => exact .cons List.filter_sublist (Thinned.refl _)
      | cons after rest =>
          have hrest := ih (some after) rest
          cases before with
          | none => exact .cons List.filter_sublist hrest
          | some pairs => exact .cons (List.filter_sublist.trans List.filter_sublist) hrest

lemma shareNodes_thinned {positions : List NodeSet} (h : positions.length = c.nodes.length) :
    Thinned (shareNodes c positions) positions := by
  rw [shareNodes]
  split
  · have hsnd : (c.nodes.zip positions).map Prod.snd = positions := List.map_snd_zip h.le
    nth_rewrite 3 [← hsnd]
    exact List.forall₂_map_left_iff.2 (List.forall₂_map_right_iff.2
      (List.forall₂_same.2 fun p _ => List.filter_sublist))
  · exact .refl _

/-- A round takes away only. -/
lemma round_partOf (h : Shaped c m) : (round c m).PartOf m where
  positions := by
    have hkept := keepNodes_thinned none m.positions (keepPairs m.positions m.pairs)
    exact (shareNodes_thinned (hkept.length_eq.trans h.positions)).trans hkept
  pairs := keepPairs_thinned m.positions m.pairs

/-! ### Rounds up to the last -/

/-- With enough rounds allowed, settling ends at a match that a round does not change. -/
lemma settle_of_lt (h : Shaped c m) {fuel : Nat} (hfuel : m.size < fuel) :
    round c (settle c fuel m) = settle c fuel m := by
  induction fuel generalizing m with
  | zero => omega
  | succ fuel ih =>
      have hpart := round_partOf h
      rw [settle]
      split
      · rename_i hsize
        have heq : round c m = m := hpart.eq_of_size_eq hsize
        rw [heq, heq]
      · rename_i hsize
        have hle := hpart.size_le
        exact ih (hpart.shaped h) (by omega)

/-- What every round keeps, settling keeps. -/
lemma settle_induction {P : Matched → Prop} (step : ∀ m, Shaped c m → P m → P (round c m))
    (h : Shaped c m) (hm : P m) (fuel : Nat) : P (settle c fuel m) := by
  induction fuel generalizing m with
  | zero => exact hm
  | succ fuel ih =>
      rw [settle]
      split
      · exact step m h hm
      · exact ih ((round_partOf h).shaped h) (step m h hm)

/-- **Pruning ends at a match that a round does not change.** -/
theorem prune_stable (h : Shaped c m) : round c (prune c m) = prune c m :=
  settle_of_lt h (Nat.lt_succ_self m.size)

lemma prune_partOf (h : Shaped c m) : (prune c m).PartOf m :=
  settle_induction (P := fun m' => m'.PartOf m) (fun _ hm' hpart =>
    (round_partOf hm').trans hpart) h
    (.refl m) _

/-! ### The rows of a match -/

/-- A row agrees with itself if it has one node at all positions of a variable. -/
def Agrees (c : Chain) (r : Row) : Prop :=
  ∀ (i j : Nat) (n n' : ChainNode), c.nodes[i]? = some n → c.nodes[j]? = some n' →
    n.name = n'.name →
    r[i]? = r[j]?

/-- A row threads a match if it takes a candidate of each position and a pair of each step, and
agrees with itself. -/
structure Threads (c : Chain) (m : Matched) (r : Row) : Prop where
  length_eq : r.length = c.nodes.length
  mem : ∀ k id, r[k]? = some id → id ∈ m.positions.getD k []
  joined : ∀ k p q, r[k]? = some p → r[k + 1]? = some q → (p, q) ∈ m.pairs.getD k []
  agrees : Agrees c r

lemma Threads.of_partOf {r : Row} (h : Threads c m r) (hpart : m.PartOf m') : Threads c m' r where
  length_eq := h.length_eq
  mem k id hid := hpart.mem_of_mem (h.mem k id hid)
  joined k p q hp hq := (hpart.pairs.sublist_getD k).subset (h.joined k p q hp hq)
  agrees := h.agrees

/-- A round keeps the pairs of a row. -/
lemma Threads.mem_keepPairs {r : Row} (h : Threads c m r) (hm : Shaped c m) {k : Nat} {p q : NodeId}
    (hp : r[k]? = some p) (hq : r[k + 1]? = some q) :
    (p, q) ∈ (keepPairs m.positions m.pairs).getD k [] := by
  have hlen : m.positions.length = m.pairs.length + 1 := by rw [hm.positions, hm.pairs, hm.fits]
  exact (Matched.mem_keepPairs hlen).2 ⟨h.joined k p q hp hq, h.mem k p hp, h.mem (k + 1) q hq⟩

/-- A round keeps the candidates of a row: each has the pair before it and the pair after it. -/
lemma Threads.mem_keepNodes {r : Row} (h : Threads c m r) (hm : Shaped c m) {k : Nat} {id : NodeId}
    (hid : r[k]? = some id) :
    id ∈ (keepNodes none m.positions (keepPairs m.positions m.pairs)).getD k [] := by
  have hkept : (keepPairs m.positions m.pairs).length = c.steps.length :=
    (keepPairs_thinned m.positions m.pairs).length_eq.trans hm.pairs
  have hlen : m.positions.length = (keepPairs m.positions m.pairs).length + 1 := by
    rw [hm.positions, hkept, hm.fits]
  have hk : k < r.length := (List.getElem?_eq_some_iff.1 hid).1
  refine mem_keepNodes_of_pairs hlen (h.mem k id hid) (fun i hi => ?_) fun hlt => ?_
  · subst hi
    exact ⟨r[i], h.mem_keepPairs hm (List.getElem?_eq_getElem (by omega)) hid⟩
  · have hlast : k + 1 < r.length := by
      rw [h.length_eq, hm.fits]
      omega
    exact ⟨r[k + 1], h.mem_keepPairs hm hid (List.getElem?_eq_getElem hlast)⟩

/-- No row of a match is lost in a round. -/
lemma threads_round {r : Row} (hm : Shaped c m) (h : Threads c m r) : Threads c (round c m) r where
  length_eq := h.length_eq
  mem k id hid := by
    have hkept := keepNodes_thinned none m.positions (keepPairs m.positions m.pairs)
    refine mem_shareNodes (hkept.length_eq.trans hm.positions) (h.mem_keepNodes hm hid) ?_
    intro i n n' hn hn' hname
    exact h.mem_keepNodes hm ((h.agrees i k n' n hn' hn hname).trans hid)
  joined _ _ _ hp hq := h.mem_keepPairs hm hp hq
  agrees := h.agrees

/-- **Pruning loses no row of a match.** -/
theorem threads_prune {r : Row} (hm : Shaped c m) (h : Threads c m r) : Threads c (prune c m) r :=
  settle_induction (P := fun m' => Threads c m' r) (fun _ hm' => threads_round hm') hm h _

/-! ### Paths through a match that a round does not change -/

/-- Every pair joins two candidates, and every candidate is at the end of a pair wherever there is a
step. -/
structure Consistent (c : Chain) (m : Matched) : Prop where
  ends : ∀ k p q, (p, q) ∈ m.pairs.getD k [] → p ∈ m.positions.getD k []
    ∧ q ∈ m.positions.getD (k + 1) []
  after : ∀ k p, p ∈ m.positions.getD k [] → k < c.steps.length → ∃ q, (p, q) ∈ m.pairs.getD k []
  before : ∀ k q, q ∈ m.positions.getD (k + 1) [] → ∃ p, (p, q) ∈ m.pairs.getD k []

/-- Where a round changes nothing, what is left is consistent. -/
lemma consistent_of_stable (hm : Shaped c m) (h : round c m = m) : Consistent c m := by
  have hlen : m.positions.length = m.pairs.length + 1 := by rw [hm.positions, hm.pairs, hm.fits]
  have hpairs : keepPairs m.positions m.pairs = m.pairs := congrArg Matched.pairs h
  have hpositions : shareNodes c (keepNodes none m.positions m.pairs) = m.positions := by
    have := congrArg Matched.positions h
    rwa [round, hpairs] at this
  have hkept : ∀ {k id}, id ∈ m.positions.getD k [] →
      id ∈ (keepNodes none m.positions m.pairs).getD k [] := by
    intro k id hid
    have hshape := (keepNodes_thinned none m.positions m.pairs).length_eq.trans hm.positions
    rw [← hpositions] at hid
    exact ((shareNodes_thinned hshape).sublist_getD k).subset hid
  refine ⟨fun k p q hpq => ?_, fun k p hp hk => ?_, fun k q hq => ?_⟩
  · rw [← hpairs] at hpq
    exact ((Matched.mem_keepPairs hlen).1 hpq).2
  · rw [← hm.pairs] at hk
    have hl : m.pairs[k]? = some m.pairs[k] := List.getElem?_eq_getElem hk
    obtain ⟨pair, hpair, rfl⟩ :=
      List.mem_map.1 (((Matched.mem_keepNodes hlen).1 (hkept hp)).2.2 _ hl)
    exact ⟨pair.2, mem_getD.2 ⟨_, hl, hpair⟩⟩
  · obtain ⟨set, hset, -⟩ := mem_getD.1 hq
    have hk := (List.getElem?_eq_some_iff.1 hset).1
    have hl : m.pairs[k]? = some m.pairs[k] := List.getElem?_eq_getElem (by omega)
    obtain ⟨pair, hpair, rfl⟩ :=
      List.mem_map.1 (((Matched.mem_keepNodes hlen).1 (hkept hq)).2.1 _ hl)
    exact ⟨pair.1, mem_getD.2 ⟨_, hl, hpair⟩⟩

lemma consistent_prune (hm : Shaped c m) : Consistent c (prune c m) :=
  consistent_of_stable ((prune_partOf hm).shaped hm) (prune_stable hm)

/-- Where there is no step there is nothing to be consistent with. -/
lemma consistent_of_steps_eq_nil (hm : Shaped c m) (h : c.steps = []) : Consistent c m := by
  have hpairs : m.pairs = [] := List.eq_nil_of_length_eq_zero (by rw [hm.pairs, h]; rfl)
  have hlen : m.positions.length = 1 := by rw [hm.positions, hm.fits, h]; rfl
  refine ⟨by simp [hpairs], by simp [h], fun k q hq => ?_⟩
  obtain ⟨set, hset, -⟩ := mem_getD.1 hq
  have hk := (List.getElem?_eq_some_iff.1 hset).1
  omega

/-- Candidates and pairs along the positions from the `k`-th on. -/
structure Along (m : Matched) (k : Nat) (t : Row) : Prop where
  mem : ∀ i p, t[i]? = some p → p ∈ m.positions.getD (k + i) []
  joined : ∀ i p q, t[i]? = some p → t[i + 1]? = some q → (p, q) ∈ m.pairs.getD (k + i) []

lemma Along.cons {k : Nat} {p q : NodeId} {t : Row} (h : Along m (k + 1) (q :: t))
    (hp : p ∈ m.positions.getD k []) (hpq : (p, q) ∈ m.pairs.getD k []) :
    Along m k (p :: q :: t) where
  mem i x hx := by
    cases i with
    | zero => cases hx; exact hp
    | succ i => simpa [Nat.add_right_comm, Nat.add_assoc] using h.mem i x hx
  joined i x y hx hy := by
    cases i with
    | zero => cases hx; cases hy; exact hpq
    | succ i => simpa [Nat.add_right_comm, Nat.add_assoc] using h.joined i x y hx hy

/-- A path through all positions that agrees with itself is a row. -/
lemma Along.threads {r : Row} (h : Along m 0 r) (hlength : r.length = c.nodes.length)
    (hagrees : Agrees c r) :
    Threads c m r where
  length_eq := hlength
  mem i p hp := by simpa using h.mem i p hp
  joined i p q hp hq := by simpa using h.joined i p q hp hq
  agrees := hagrees

/-- From a candidate there is a path to the last position. -/
lemma Consistent.exists_along_after (h : Consistent c m) (d : Nat) {k : Nat} {p : NodeId}
    (hk : k + d = c.steps.length) (hp : p ∈ m.positions.getD k []) :
    ∃ t, t.length = d ∧ Along m k (p :: t) := by
  induction d generalizing k p with
  | zero =>
      refine ⟨[], rfl, fun i x hx => ?_, fun i x y _ hy => by simp at hy⟩
      obtain ⟨rfl, rfl⟩ : i = 0 ∧ p = x := by
        cases i with
        | zero => exact ⟨rfl, Option.some.inj hx⟩
        | succ i => simp at hx
      exact hp
  | succ d ih =>
      obtain ⟨q, hpq⟩ := h.after k p hp (by omega)
      obtain ⟨t, ht, halong⟩ := ih (k := k + 1) (by omega) (h.ends k p q hpq).2
      exact ⟨q :: t, by simp [ht], halong.cons hp hpq⟩

/-- A path from a position on can be led back to the first position. -/
lemma Consistent.exists_along_before (h : Consistent c m) {k : Nat} {q : NodeId} {t : Row}
    (hq : q ∈ m.positions.getD k []) (ht : Along m k (q :: t)) :
    ∃ before, before.length = k ∧ Along m 0 (before ++ q :: t) := by
  induction k generalizing q t with
  | zero => exact ⟨[], rfl, ht⟩
  | succ k ih =>
      obtain ⟨p, hpq⟩ := h.before k q hq
      have hp := (h.ends k p q hpq).1
      obtain ⟨before, hlen, halong⟩ := ih hp (ht.cons hp hpq)
      exact ⟨before ++ [p], by simp [hlen], by simpa using halong⟩

/-- A path to the last position can be led back to the first position. -/
lemma Consistent.exists_along_of_along (h : Consistent c m) (hm : Shaped c m) {k : Nat} {p : NodeId}
    {t : Row} (hk : k + t.length = c.steps.length) (hp : p ∈ m.positions.getD k [])
    (ht : Along m k (p :: t)) :
    ∃ before, before.length = k ∧ (before ++ p :: t).length = c.nodes.length
      ∧ Along m 0 (before ++ p :: t) := by
  obtain ⟨before, hbefore, halong⟩ := h.exists_along_before hp ht
  refine ⟨before, hbefore, ?_, halong⟩
  rw [List.length_append, List.length_cons, hbefore, hm.fits]
  omega

/-- **In a consistent match every candidate is on a path through all positions.** -/
theorem Consistent.exists_along (h : Consistent c m) (hm : Shaped c m) {k : Nat} {id : NodeId}
    (hid : id ∈ m.positions.getD k []) :
    ∃ r, r.length = c.nodes.length ∧ r[k]? = some id ∧ Along m 0 r := by
  obtain ⟨set, hset, -⟩ := mem_getD.1 hid
  have hk := (List.getElem?_eq_some_iff.1 hset).1
  have hsteps : k + (c.steps.length - k) = c.steps.length := by
    have := hm.positions
    have := hm.fits
    omega
  obtain ⟨t, ht, hafter⟩ := h.exists_along_after _ hsteps hid
  obtain ⟨before, hbefore, hlen, halong⟩ := h.exists_along_of_along hm (by omega) hid hafter
  exact ⟨before ++ id :: t, hlen, by simp [← hbefore], halong⟩

/-- **In a consistent match every pair is on a path through all positions.** -/
theorem Consistent.exists_along_pair (h : Consistent c m) (hm : Shaped c m) {k : Nat} {p q : NodeId}
    (hpq : (p, q) ∈ m.pairs.getD k []) :
    ∃ r, r.length = c.nodes.length ∧ r[k]? = some p ∧ r[k + 1]? = some q ∧ Along m 0 r := by
  obtain ⟨hp, hq⟩ := h.ends k p q hpq
  obtain ⟨pairs, hpairs, -⟩ := mem_getD.1 hpq
  have hk : k < c.steps.length := hm.pairs ▸ (List.getElem?_eq_some_iff.1 hpairs).1
  obtain ⟨t, ht, hafter⟩ := h.exists_along_after (c.steps.length - (k + 1)) (by omega) hq
  obtain ⟨before, hbefore, hlen, halong⟩ :=
    h.exists_along_of_along hm (by rw [List.length_cons]; omega) hp (hafter.cons hp hpq)
  exact ⟨before ++ p :: q :: t, hlen, by simp [← hbefore], by simp [← hbefore], halong⟩

end Matched
end CodeGraph
