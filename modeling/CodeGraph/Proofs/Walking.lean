import CodeGraph.Proofs.CheckedMatching

/-!
Walking along the rows of a match.

Rows are walked depth first on one row that grows and shrinks: a node is put at its end, the walk
goes on from there, and the node is taken away again. What the steps lead to is looked up in one map
for each step, and a position whose variable has stood before takes only the node that the row has
there. A walk visits each row that can be made in this way, in the order of the places that its
nodes have in what they were looked up in, and it leaves the row as it was.

* `Adjacency`: from a node the nodes that a step leads to. `Adjacency.ofPairs`: the map of the pairs
  of a step.
* `Walk.go?`: a walk, every place checked.
* `branches`: the rows that a walk visits, each with the places that it took its nodes from.
  `Walk.go?_eq`: a walk visits these and nothing else. `mem_branches`, `pairwise_branches`: which
  rows they are, and in which order they come.
* `walk?_eq_branches`: for the maps of a match they are the rows of the match.
* `Walk.visits_rows`: what a walk from a node visits.
-/

namespace CodeGraph

/-! ### Maps of steps -/

/-- The nodes that a step leads to from each node that it leads on from. -/
abbrev Adjacency := NodeId → Option (List NodeId)

namespace Adjacency

/-- A pair puts its second node at the end of what the first one leads to. -/
def push (map : Adjacency) (p : NodeId × NodeId) : Adjacency :=
  fun id => if id = p.1 then some ((map id).getD [] ++ [p.2]) else map id

/-- The map of the pairs of a step. -/
def ofPairs (pairs : List (NodeId × NodeId)) : Adjacency := pairs.foldl push fun _ => none

/-- A node leads to what the pairs lead to from it, in their order. -/
lemma getD_ofPairs (pairs : List (NodeId × NodeId)) (id : NodeId) :
    (ofPairs pairs id).getD [] = successors pairs id := by
  have key : ∀ (pairs : List (NodeId × NodeId)) (map : Adjacency),
      (pairs.foldl push map id).getD [] = (map id).getD [] ++ successors pairs id := by
    intro pairs
    induction pairs with
    | nil => simp [successors]
    | cons p rest ih =>
        intro map
        rw [List.foldl_cons, ih, push]
        by_cases hp : id = p.1
        · simp [successors, hp]
        · simp [successors, hp, Ne.symm hp]
  simpa [ofPairs] using key pairs fun _ => none

end Adjacency

/-! ### Walking -/

/-- A walk: the row as far as it has come, and what the visits have made of a state. -/
structure Walk (σ : Type) where
  row : Row
  state : σ

variable {σ : Type} {adjacency : List Adjacency} {firstOf : List Nat}

/-- Whether a node can stand at a place of a row: if the variable of the place has stood before, the
row has the node there. -/
def agreesAt? (firstOf : List Nat) (k : Nat) (row : Row) (next : NodeId) : Option Bool := do
  let first ← firstOf[k]?
  if first < k then (row[first]?).map (· == next) else some true

/-- Walks on from a row, by at most `depth` calls into one another, and visits the rows that are as
long as the table of first positions. -/
def Walk.go? (adjacency : List Adjacency) (firstOf : List Nat) (visit : Row → σ → σ) :
    (depth : Nat) → Walk σ → Option (Walk σ)
  | 0, _ => none
  | depth + 1, w => do
    let k := w.row.length
    if k = firstOf.length then some { w with state := visit w.row w.state }
    else do
      let last ← before? k
      let map ← adjacency[last]?
      let id ← w.row[last]?
      match map id with
      | none => some w
      | some nexts => nexts.foldlM (fun w next => do
          if ← agreesAt? firstOf k w.row next then do
            let gone ← go? adjacency firstOf visit depth { w with row := w.row ++ [next] }
            some { gone with row := gone.row.dropLast }
          else some w) w

/-! ### The rows that are visited -/

/-- The nodes that a step may lead to from a node; without a map for the step there are none. -/
def nextsAfter (adjacency : List Adjacency) (step : Nat) (id : NodeId) : List NodeId :=
  ((adjacency[step]?).bind fun map => map id).getD []

/-- The rows that extend a row and a node after it by a number of nodes, each with the places that
these nodes have in what the steps lead to. A node is passed over where its variable has stood
before with another one. -/
def branches (adjacency : List Adjacency) (firstOf : List Nat) :
    (left : Nat) → Row → NodeId → List (List Nat × Row)
  | 0, before, id => [([], before ++ [id])]
  | left + 1, before, id => (nextsAfter adjacency before.length id).zipIdx.flatMap fun p =>
    if extends? firstOf (before ++ [id]) p.1 = some true then
      (branches adjacency firstOf left (before ++ [id]) p.1).map fun b => (p.2 :: b.1, b.2)
    else []

/-- The rows alone go on from each node in turn. -/
lemma map_snd_branches (left : Nat) (before : Row) (id : NodeId) :
    (branches adjacency firstOf (left + 1) before id).map Prod.snd
      = (nextsAfter adjacency before.length id).flatMap fun next =>
        if extends? firstOf (before ++ [id]) next = some true then
          (branches adjacency firstOf left (before ++ [id]) next).map Prod.snd
        else [] := by
  have hrest : ∀ p : NodeId × Nat, (if extends? firstOf (before ++ [id]) p.1 = some true then
        (branches adjacency firstOf left (before ++ [id]) p.1).map fun b => (p.2 :: b.1, b.2)
      else []).map Prod.snd
      = if extends? firstOf (before ++ [id]) p.1 = some true then
          (branches adjacency firstOf left (before ++ [id]) p.1).map Prod.snd
        else [] := by
    intro p
    split
    · rw [List.map_map]
      rfl
    · rfl
  rw [branches, List.map_flatMap]
  simp only [hrest]
  conv_rhs => rw [← List.zipIdx_map_fst 0 (nextsAfter adjacency before.length id), List.flatMap_map]

/-- Visits some rows, one after the other. -/
def visitAll (visit : Row → σ → σ) (rows : List Row) (state : σ) : σ :=
  rows.foldl (fun state r => visit r state) state

/-- Where each node that is put at the end of a row makes some visits and leaves the row as it was,
all of them do. -/
lemma foldlM_visits {visit : Row → σ → σ} {row : Row} {step : Walk σ → NodeId → Option (Walk σ)}
    {rowsOf : NodeId → List Row}
    (h : ∀ next state, step ⟨row, state⟩ next = some ⟨row, visitAll visit (rowsOf next) state⟩)
    (nexts : List NodeId)
    (state : σ) :
    nexts.foldlM step ⟨row, state⟩ = some ⟨row, visitAll visit (nexts.flatMap rowsOf) state⟩ := by
  induction nexts generalizing state with
  | nil => rfl
  | cons next rest ih =>
      rw [List.foldlM_cons, h, Option.bind_eq_bind, Option.bind_some, ih, List.flatMap_cons]
      simp only [visitAll, List.foldl_append]

/-- A position whose variable has stood before finds the node that the row has there. -/
lemma exists_extends? {row : Row} (h : row.length < firstOf.length) (next : NodeId) :
    ∃ agrees, extends? firstOf row next = some agrees := by
  rw [extends?, List.getElem?_eq_getElem h]
  by_cases hlt : firstOf[row.length] < row.length
  · simp [hlt]
  · simp [hlt]

/-- **A walk** visits the branches of its row in their order, and leaves the row as it was. It goes
no deeper than the row can grow. -/
lemma Walk.go?_eq (hsteps : firstOf.length ≤ adjacency.length + 1) (visit : Row → σ → σ)
    {left depth : Nat} {before : Row} {id : NodeId}
    (hleft : before.length + 1 + left = firstOf.length) (hdepth : left ≤ depth) (state : σ) :
    go? adjacency firstOf visit (depth + 1) ⟨before ++ [id], state⟩
      = some ⟨before ++ [id],
        visitAll visit ((branches adjacency firstOf left before id).map Prod.snd) state⟩ := by
  induction left generalizing before id state depth with
  | zero =>
      rw [go?, if_pos (by simpa using hleft)]
      rfl
  | succ left ih =>
      have hlength : (before ++ [id]).length = before.length + 1 := by simp
      have hlt : (before ++ [id]).length < firstOf.length := by omega
      have hmap : adjacency[before.length]? = some adjacency[before.length] :=
        List.getElem?_eq_getElem (by omega)
      obtain ⟨depth, rfl⟩ := Nat.exists_eq_add_of_le' (Nat.le_of_add_left_le hdepth)
      have hgo : ∀ next state,
          go? adjacency firstOf visit (depth + 1) ⟨before ++ [id] ++ [next], state⟩ = _ :=
        fun next => @ih depth (before ++ [id]) next (by omega) (by omega)
      rw [go?, if_neg hlt.ne, hlength, map_snd_branches]
      simp only [before?, hmap, List.getElem?_concat_length, Option.bind_eq_bind,
        Option.bind_some, nextsAfter]
      cases hnexts : adjacency[before.length] id with
      | none => rfl
      | some nexts =>
          refine foldlM_visits (fun next state => ?_) nexts state
          -- the node is put at the end of the row, and taken away after the walk
          obtain ⟨agrees, hagrees⟩ := exists_extends? hlt next
          have hplace : agreesAt? firstOf (before.length + 1) (before ++ [id]) next
              = some agrees := by
            rw [← hagrees, extends?, hlength, agreesAt?]
          rw [hplace, hagrees, Option.bind_some]
          cases agrees with
          | false => rfl
          | true =>
              simp only [if_true]
              rw [hgo, Option.bind_some, List.dropLast_concat]

/-! ### Which rows are visited -/

/-- The node after the `k`-th of a row is at a place of what the step leads to from the `k`-th. -/
def TakenAt (adjacency : List Adjacency) (r : Row) (k i : Nat) : Prop :=
  ∃ map a nexts b, adjacency[k]? = some map ∧ r[k]? = some a ∧ map a = some nexts
    ∧ r[k + 1]? = some b
    ∧ nexts[i]? = some b

/-- A row of full length goes on from another one and a node after it: each further node is taken
from its place, and where its variable has stood before it is the node that the row has there. -/
structure GoesOn (adjacency : List Adjacency) (firstOf : List Nat) (before : Row) (id : NodeId)
    (places : List Nat) (r : Row) : Prop where
  starts : before ++ [id] <+: r
  length_eq : r.length = firstOf.length
  length_places : before.length + 1 + places.length = firstOf.length
  taken : ∀ (k i : Nat), places[k]? = some i → TakenAt adjacency r (before.length + k) i
  agrees : ∀ (k first : Nat), before.length < k → firstOf[k]? = some first → first < k →
    r[first]? = r[k]?

lemma getElem?_of_begins {before r : Row} {id : NodeId} (h : before ++ [id] <+: r) :
    r[before.length]? = some id := by
  obtain ⟨rest, rfl⟩ := h
  simp

lemma begins_concat {row r : Row} {next : NodeId} (h : row <+: r)
    (hnext : r[row.length]? = some next) :
    row ++ [next] <+: r := by
  obtain ⟨rest, rfl⟩ := h
  obtain _ | ⟨x, rest⟩ := rest
  · simp at hnext
  · obtain rfl : x = next := by simpa using hnext
    exact ⟨rest, by simp⟩

lemma extends?_iff {row : Row} {first : Nat} (h : firstOf[row.length]? = some first)
    (next : NodeId) :
    extends? firstOf row next = some true ↔ (first < row.length → row[first]? = some next) := by
  rw [extends?, h, Option.bind_eq_bind, Option.bind_some]
  by_cases hlt : first < row.length
  · simp [hlt]
  · simp [hlt]

lemma getElem?_nextsAfter {step i : Nat} {id next : NodeId} :
    (nextsAfter adjacency step id)[i]? = some next
      ↔ ∃ map nexts, adjacency[step]? = some map ∧ map id = some nexts ∧ nexts[i]? = some next := by
  rw [nextsAfter]
  cases adjacency[step]? with
  | none => simp
  | some map => cases hid : map id <;> simp [hid]

/-- A row goes on by a node and then from there. -/
lemma GoesOn.cons {before r : Row} {id next : NodeId} {i : Nat} {places : List Nat}
    (hnext : (nextsAfter adjacency before.length id)[i]? = some next)
    (hextends : extends? firstOf (before ++ [id]) next = some true)
    (h : GoesOn adjacency firstOf (before ++ [id]) next places r) :
    GoesOn adjacency firstOf before id (i :: places) r := by
  have hlength : (before ++ [id]).length = before.length + 1 := by simp
  have hplaces := h.length_places
  have hplace : before.length + 1 < firstOf.length := by omega
  have hstarts : before ++ [id] <+: r := (List.prefix_append _ _).trans h.starts
  have hafter : r[before.length + 1]? = some next := hlength ▸ getElem?_of_begins h.starts
  refine ⟨hstarts, h.length_eq, by rw [List.length_cons]; omega, fun k j hj => ?_,
    fun k first hk hfirst hlt => ?_⟩
  · cases k with
    | zero =>
        cases hj
        obtain ⟨map, nexts, hmap, hnexts, hi⟩ := getElem?_nextsAfter.1 hnext
        exact ⟨map, id, nexts, next, hmap, getElem?_of_begins hstarts, hnexts, hafter, hi⟩
    | succ k =>
        have htaken := h.taken k j hj
        rwa [hlength, Nat.add_right_comm] at htaken
  · rcases Nat.lt_or_ge (before.length + 1) k with hgt | hle
    · exact h.agrees k first (by omega) hfirst hlt
    · obtain rfl : k = before.length + 1 := by omega
      have hlt' : first < (before ++ [id]).length := hlength ▸ hlt
      have hhas : (before ++ [id])[first]? = some next :=
        (extends?_iff (hlength ▸ hfirst) next).1 hextends hlt'
      rw [hafter, ← hhas, List.getElem?_eq_getElem hlt']
      exact List.prefix_iff_getElem?.1 hstarts first hlt'

/-- A row that goes on goes on by the node at the first of its places, and then from there. -/
lemma GoesOn.exists_next {before r : Row} {id : NodeId} {i : Nat} {places : List Nat}
    (h : GoesOn adjacency firstOf before id (i :: places) r) :
    ∃ next, (nextsAfter adjacency before.length id)[i]? = some next
      ∧ extends? firstOf (before ++ [id]) next = some true
      ∧ GoesOn adjacency firstOf (before ++ [id]) next places r := by
  have hlength : (before ++ [id]).length = before.length + 1 := by simp
  have hplaces := h.length_places
  rw [List.length_cons] at hplaces
  have hplace : before.length + 1 < firstOf.length := by omega
  have hfirst : firstOf[before.length + 1]? = some firstOf[before.length + 1] :=
    List.getElem?_eq_getElem hplace
  have hextends : ∀ next, extends? firstOf (before ++ [id]) next = some true ↔ _ :=
    extends?_iff (by rw [hlength]; exact hfirst)
  obtain ⟨map, a, nexts, next, hmap, ha, hnexts, hafter, hi⟩ := h.taken 0 i rfl
  rw [Nat.add_zero] at hmap ha hafter
  cases (getElem?_of_begins h.starts).symm.trans ha
  refine ⟨next, getElem?_nextsAfter.2 ⟨map, nexts, hmap, hnexts, hi⟩,
    (hextends next).2 fun hlt => ?_, begins_concat h.starts (hlength ▸ hafter), h.length_eq,
    by omega, fun k j hj => ?_, fun k first hk => h.agrees k first (by omega)⟩
  · rw [← hafter, ← h.agrees (before.length + 1) _ (by omega) hfirst (by omega),
      List.getElem?_eq_getElem hlt]
    exact (List.prefix_iff_getElem?.1 h.starts _ hlt).symm
  · rw [hlength, Nat.add_right_comm]
    exact h.taken (k + 1) j hj

lemma mem_branches_succ {left : Nat} {before r : Row} {id : NodeId} {places : List Nat} :
    (places, r) ∈ branches adjacency firstOf (left + 1) before id
      ↔ ∃ next i rest, places = i :: rest ∧ (nextsAfter adjacency before.length id)[i]? = some next
        ∧ extends? firstOf (before ++ [id]) next = some true
        ∧ (rest, r) ∈ branches adjacency firstOf left (before ++ [id]) next := by
  rw [branches, List.mem_flatMap]
  constructor
  · rintro ⟨⟨next, i⟩, hnext, hmem⟩
    split at hmem
    · rename_i hextends
      obtain ⟨⟨rest, r'⟩, hrest, heq⟩ := List.mem_map.1 hmem
      cases heq
      exact ⟨next, i, rest, rfl, List.mk_mem_zipIdx_iff_getElem?.1 hnext, hextends, hrest⟩
    · cases hmem
  · rintro ⟨next, i, rest, rfl, hnext, hextends, hrest⟩
    refine ⟨(next, i), List.mk_mem_zipIdx_iff_getElem?.2 hnext, ?_⟩
    rw [if_pos hextends]
    exact List.mem_map.2 ⟨(rest, r), hrest, rfl⟩

/-- **The branches** are the rows that go on, each with the places that its nodes were taken from.
-/
lemma mem_branches {left : Nat} {before r : Row} {id : NodeId} {places : List Nat}
    (hleft : before.length + 1 + left = firstOf.length) :
    (places, r) ∈ branches adjacency firstOf left before id
      ↔ GoesOn adjacency firstOf before id places r := by
  induction left generalizing before id places with
  | zero =>
      rw [branches, List.mem_singleton, Prod.mk.injEq]
      constructor
      · rintro ⟨rfl, rfl⟩
        refine ⟨List.prefix_refl _, by simpa using hleft, hleft, fun k i hi => ?_,
          fun k first hk hfirst => ?_⟩
        · cases hi
        · have := (List.getElem?_eq_some_iff.1 hfirst).1
          omega
      · intro h
        have hplaces := h.length_places
        refine ⟨List.eq_nil_of_length_eq_zero (by omega), (h.starts.eq_of_length ?_).symm⟩
        rw [h.length_eq, ← hleft, List.length_append, List.length_singleton]
  | succ left ih =>
      have hlength : (before ++ [id]).length = before.length + 1 := by simp
      have hrest : ∀ next rest, (rest, r) ∈ branches adjacency firstOf left (before ++ [id]) next
          ↔ GoesOn adjacency firstOf (before ++ [id]) next rest r := fun next rest => ih (by omega)
      simp only [mem_branches_succ, hrest]
      constructor
      · rintro ⟨next, i, rest, rfl, hnext, hextends, hgoes⟩
        exact hgoes.cons hnext hextends
      · intro h
        have hplaces := h.length_places
        obtain ⟨i, rest, rfl⟩ : ∃ i rest, places = i :: rest :=
          List.exists_cons_of_length_pos (by omega)
        obtain ⟨next, hnext, hextends, hgoes⟩ := h.exists_next
        exact ⟨next, i, rest, rfl, hnext, hextends, hgoes⟩

/-- The branches come in the order of their places, of which the first that differs decides. -/
lemma pairwise_branches (left : Nat) (before : Row) (id : NodeId) :
    (branches adjacency firstOf left before id).Pairwise fun b b' => b.1 < b'.1 := by
  induction left generalizing before id with
  | zero => exact List.pairwise_singleton _ _
  | succ left ih =>
      have hplaces : (nextsAfter adjacency before.length id).zipIdx.Pairwise fun p p' =>
          p.2 < p'.2 := by
        rw [← List.pairwise_map, List.zipIdx_map_snd]
        exact List.pairwise_lt_range'
      refine List.pairwise_flatMap.2 ⟨fun p _ => ?_, hplaces.imp fun {p p'} hlt b hb b' hb' => ?_⟩
      · split
        · exact List.pairwise_map.2 ((ih (before ++ [id]) p.1).imp fun hlt =>
            List.cons_lt_cons_iff.2 (.inr ⟨rfl, hlt⟩))
        · exact List.Pairwise.nil
      · split at hb
        · split at hb'
          · obtain ⟨x, -, rfl⟩ := List.mem_map.1 hb
            obtain ⟨y, -, rfl⟩ := List.mem_map.1 hb'
            exact List.cons_lt_cons_iff.2 (.inl hlt)
          · cases hb'
        · cases hb

/-- **For the maps of a match** the branches of a row are what the match extends it to. -/
lemma walk?_eq_branches {pairs : List (List (NodeId × NodeId))}
    (hsteps : firstOf.length ≤ pairs.length + 1) {left : Nat} {before : Row} {id : NodeId}
    (hleft : before.length + 1 + left = firstOf.length) :
    walk? pairs firstOf (before ++ [id])
      = some ((branches (pairs.map Adjacency.ofPairs) firstOf left before id).map Prod.snd) := by
  induction left generalizing before id with
  | zero =>
      rw [walk?, if_pos (by simpa using hleft)]
      rfl
  | succ left ih =>
      have hlength : (before ++ [id]).length = before.length + 1 := by simp
      have hlt : (before ++ [id]).length < firstOf.length := by omega
      have hstep : pairs[before.length]? = some pairs[before.length] :=
        List.getElem?_eq_getElem (by omega)
      have hnexts : nextsAfter (pairs.map Adjacency.ofPairs) before.length id
          = successors pairs[before.length] id := by
        rw [nextsAfter, List.getElem?_map, hstep]
        exact Adjacency.getD_ofPairs pairs[before.length] id
      have hnext : ∀ next, (do
            if ← extends? firstOf (before ++ [id]) next
              then walk? pairs firstOf (before ++ [id] ++ [next])
            else some [])
          = some (if extends? firstOf (before ++ [id]) next = some true then
            (branches (pairs.map Adjacency.ofPairs) firstOf left (before ++ [id]) next).map Prod.snd
              else []) := by
        intro next
        obtain ⟨agrees, hagrees⟩ := exists_extends? hlt next
        have hrest := @ih (before ++ [id]) next (by omega)
        rw [hagrees, Option.bind_eq_bind, Option.bind_some, hrest]
        cases agrees <;> rfl
      rw [walk?_of_lt hlt hstep, funext hnext, mapM_some, map_snd_branches, hnexts,
        Option.bind_eq_bind, Option.bind_some, ← List.flatMap_def]

/-! ### Rows of full length -/

/-- A row of full length begins with a node, takes each further one from what its step leads to from
the one before, and has at each position the node of the first position of its variable. -/
structure FullRow (adjacency : List Adjacency) (firstOf : List Nat) (start : NodeId)
    (r : Row) : Prop where
  length_eq : r.length = firstOf.length
  head : r[0]? = some start
  joined : ∀ (k : Nat) a b, r[k]? = some a → r[k + 1]? = some b →
    ∃ map nexts, adjacency[k]? = some map ∧ map a = some nexts ∧ b ∈ nexts
  agrees : ∀ (k first : Nat), firstOf[k]? = some first → r[first]? = r[k]?

/-- Each node of a row but the first was taken from a place. -/
def TakenFrom (adjacency : List Adjacency) (places : List Nat) (r : Row) : Prop :=
  places.length + 1 = r.length ∧ ∀ (k i : Nat), places[k]? = some i → TakenAt adjacency r k i

section FullRow

variable {start : NodeId} {places : List Nat} {r : Row}

/-- Where the first position of a variable is not after any other, the rows that go on from a node
alone are those of full length, each with the places that it was taken from. -/
lemma goesOn_nil_iff (hfirst : ∀ (k first : Nat), firstOf[k]? = some first → first ≤ k) :
    GoesOn adjacency firstOf [] start places r
      ↔ FullRow adjacency firstOf start r ∧ TakenFrom adjacency places r := by
  constructor
  · intro h
    have hplaces := h.length_places
    have hlength := h.length_eq
    rw [List.length_nil] at hplaces
    have htaken : ∀ (k i : Nat), places[k]? = some i → TakenAt adjacency r k i := fun k i hi => by
      simpa using h.taken k i hi
    refine ⟨⟨hlength, getElem?_of_begins h.starts, fun k a b ha hb => ?_,
      fun k first hk => ?_⟩, by omega,
      htaken⟩
    · have hlt : k < places.length := by
        have := (List.getElem?_eq_some_iff.1 hb).1
        omega
      obtain ⟨map, a', nexts, b', hmap, ha', hnexts, hb', hi⟩ :=
        htaken k _ (List.getElem?_eq_getElem hlt)
      cases ha.symm.trans ha'
      cases hb.symm.trans hb'
      exact ⟨map, nexts, hmap, hnexts, List.mem_of_getElem? hi⟩
    · rcases (hfirst k first hk).lt_or_eq with hlt | rfl
      · exact h.agrees k first (Nat.zero_lt_of_lt hlt) hk hlt
      · rfl
  · rintro ⟨h, hlength, htaken⟩
    have hstart : ([] : Row) ++ [start] <+: r := begins_concat (List.nil_prefix) h.head
    have hfull := h.length_eq
    refine ⟨hstart, hfull, by rw [List.length_nil]; omega, fun k i hi => ?_,
      fun k first _ hk _ => h.agrees k first hk⟩
    simpa using htaken k i hi

/-- A row of full length was taken from some places. -/
lemma FullRow.exists_places (h : FullRow adjacency firstOf start r) :
    ∃ places, TakenFrom adjacency places r := by
  have hpos : 0 < r.length := (List.getElem?_eq_some_iff.1 h.head).1
  have hplace : ∀ k : Fin (r.length - 1), ∃ i, TakenAt adjacency r k i := by
    rintro ⟨k, hk⟩
    have ha : r[k]? = some r[k] := List.getElem?_eq_getElem (by omega)
    have hb : r[k + 1]? = some r[k + 1] := List.getElem?_eq_getElem (by omega)
    obtain ⟨map, nexts, hmap, hnexts, hmem⟩ := h.joined k _ _ ha hb
    obtain ⟨i, hi⟩ := List.mem_iff_getElem?.1 hmem
    exact ⟨i, map, _, nexts, _, hmap, ha, hnexts, hb, hi⟩
  choose place hplace using hplace
  refine ⟨List.ofFn place, by rw [List.length_ofFn]; omega, fun k i hi => ?_⟩
  rw [List.getElem?_ofFn] at hi
  split at hi
  · rename_i hk
    cases hi
    exact hplace ⟨k, hk⟩
  · cases hi

/-- Where nothing is led to twice, a row was taken from its places only. -/
lemma TakenFrom.unique (hnodup : ∀ map ∈ adjacency, ∀ id, ∀ nexts ∈ map id, nexts.Nodup)
    {places' : List Nat}
    (h : TakenFrom adjacency places r) (h' : TakenFrom adjacency places' r) : places = places' := by
  have hlength : places.length = places'.length := by
    have := h.1
    have := h'.1
    omega
  refine List.ext_getElem hlength fun k hk hk' => ?_
  obtain ⟨map, a, nexts, b, hmap, ha, hnexts, hb, hi⟩ := h.2 k _ (List.getElem?_eq_getElem hk)
  obtain ⟨map', a', nexts', b', hmap', ha', hnexts', hb', hi'⟩ :=
    h'.2 k _ (List.getElem?_eq_getElem hk')
  cases hmap.symm.trans hmap'
  cases ha.symm.trans ha'
  cases hnexts.symm.trans hnexts'
  cases hb.symm.trans hb'
  have hone : nexts.Nodup := hnodup map (List.mem_of_getElem? hmap) a nexts hnexts
  exact (List.getElem?_inj (List.getElem?_eq_some_iff.1 hi).1 hone).1 (hi.trans hi'.symm)

end FullRow

/-- **A walk visits the rows and nothing else.** Take a map for each step, and a table that tells of
each position one that is not after it. From a node alone a walk makes its visits in turn to the
rows of full length, whatever a visit does, and ends with the row as it was, no deeper in calls than
a row has positions. The rows come in the order of the places that their nodes were taken from, of
which the first that differs decides, each as often as there are such places: once, if no map leads
to a node twice. For the maps of a match and the first positions of the variables of its chain they
are the rows of the match. -/
theorem Walk.visits_rows (hpos : 0 < firstOf.length)
    (hsteps : firstOf.length ≤ adjacency.length + 1)
    (hfirst : ∀ (k first : Nat), firstOf[k]? = some first → first ≤ k) (start : NodeId) :
    ∃ placed : List (List Nat × Row),
      (∀ (σ : Type) (visit : Row → σ → σ) (depth : Nat) (state : σ), firstOf.length ≤ depth →
        go? adjacency firstOf visit depth ⟨[start], state⟩
          = some ⟨[start], visitAll visit (placed.map Prod.snd) state⟩)
      ∧ (∀ r, r ∈ placed.map Prod.snd ↔ FullRow adjacency firstOf start r)
      ∧ (∀ places r,
        (places, r) ∈ placed ↔ FullRow adjacency firstOf start r ∧ TakenFrom adjacency places r)
      ∧ placed.Pairwise (fun p p' => p.1 < p'.1)
      ∧ ((∀ map ∈ adjacency, ∀ id, ∀ nexts ∈ map id, nexts.Nodup) → (placed.map Prod.snd).Nodup)
      ∧ ∀ (c : Chain) (m : Matched), Matched.Shaped c m → c.FirstPlaces firstOf →
        adjacency = m.pairs.map Adjacency.ofPairs →
          placed.map Prod.snd = rowsThrough c m start := by
  have hleft : ([] : Row).length + 1 + (firstOf.length - 1) = firstOf.length := by
    rw [List.length_nil]
    omega
  have hplaced : ∀ places r, (places, r) ∈ branches adjacency firstOf (firstOf.length - 1) [] start
      ↔ FullRow adjacency firstOf start r ∧ TakenFrom adjacency places r := fun places r =>
    (mem_branches hleft).trans (goesOn_nil_iff hfirst)
  have hordered : (branches adjacency firstOf (firstOf.length - 1) [] start).Pairwise fun b b' =>
      b.1 < b'.1 :=
    pairwise_branches (firstOf.length - 1) [] start
  refine ⟨branches adjacency firstOf (firstOf.length - 1) [] start,
    fun σ visit depth state hdepth => ?_, fun r => ?_, hplaced, hordered, fun hnodup => ?_,
    fun c m hm hplaces hmaps => ?_⟩
  · obtain ⟨depth, rfl⟩ := Nat.exists_eq_add_of_le' (hpos.trans_le hdepth)
    exact go?_eq hsteps visit hleft (by omega) state
  · constructor
    · intro hr
      obtain ⟨⟨places, r'⟩, hmem, rfl⟩ := List.mem_map.1 hr
      exact ((hplaced places r').1 hmem).1
    · intro hr
      obtain ⟨places, htaken⟩ := hr.exists_places
      exact List.mem_map.2 ⟨(places, r), (hplaced places r).2 ⟨hr, htaken⟩, rfl⟩
  · -- two visits to a row would have been taken from the same places
    refine List.pairwise_map.2 (hordered.imp_of_mem fun {p p'} hp hp' hlt heq => ?_)
    have htaken := ((hplaced p.1 p.2).1 hp).2
    have htaken' := ((hplaced p'.1 p'.2).1 hp').2
    rw [← heq] at htaken'
    rw [htaken.unique hnodup htaken'] at hlt
    exact List.lt_irrefl _ hlt
  · subst hmaps
    rw [List.length_map] at hsteps
    exact Option.some.inj
      ((walk?_eq_branches hsteps hleft).symm.trans (walk?_start hm hplaces start))

/-- A chain that comes back to its first variable: of the four ways on from a node only the two that
lead back to it are visited, in the order in which they lead away from it. -/
theorem Walk.visits_rows_of_loop :
    let c : Chain :=
      { nodes := [{ name := "f" }, { name := "g" }, { name := "f" }]
        steps := [{ direction := .outgoing }, { direction := .outgoing }] }
    let m : Matched :=
      { positions := [[⟨0⟩], [⟨1⟩, ⟨2⟩], [⟨0⟩, ⟨3⟩]]
        pairs := [[(⟨0⟩, ⟨2⟩), (⟨0⟩, ⟨1⟩)], [(⟨1⟩, ⟨0⟩), (⟨1⟩, ⟨3⟩), (⟨2⟩, ⟨3⟩), (⟨2⟩, ⟨0⟩)]] }
    c.FirstPlaces [0, 1, 0]
      ∧ go? (m.pairs.map Adjacency.ofPairs) [0, 1, 0] (fun r rows => rows ++ [r]) 3 ⟨[⟨0⟩], []⟩
        = some ⟨[⟨0⟩], [[⟨0⟩, ⟨2⟩, ⟨0⟩], [⟨0⟩, ⟨1⟩, ⟨0⟩]]⟩
      ∧ FullRow (m.pairs.map Adjacency.ofPairs) [0, 1, 0] ⟨0⟩ [⟨0⟩, ⟨1⟩, ⟨0⟩] := by
  intro c m
  have hfirst : ∀ (k first : Nat), [0, 1, 0][k]? = some first → first ≤ k := by
    intro k first h
    obtain _ | _ | _ | k := k
    all_goals simp at h
    all_goals omega
  have hplaces : c.FirstPlaces [0, 1, 0] := by
    refine ⟨rfl, fun k n hn => ?_⟩
    obtain _ | _ | _ | k := k
    all_goals cases hn
    all_goals decide
  have hsteps : [0, 1, 0].length ≤ (m.pairs.map Adjacency.ofPairs).length + 1 := by decide
  obtain ⟨placed, hgo, hmem, -, -, -, hrows⟩ := visits_rows (by decide) hsteps hfirst ⟨0⟩
  have hplaced : placed.map Prod.snd = [[⟨0⟩, ⟨2⟩, ⟨0⟩], [⟨0⟩, ⟨1⟩, ⟨0⟩]] :=
    (hrows c m ⟨rfl, rfl, rfl⟩ hplaces rfl).trans (by decide +kernel)
  rw [hplaced] at hmem
  refine ⟨hplaces, (hgo _ _ _ _ le_rfl).trans ?_, (hmem _).1 (by simp)⟩
  rw [hplaced]
  rfl

end CodeGraph
