import CodeGraph.Proofs.SettledParts

/-!
The rounds of pruning, and how they find that they are done.

Pruning stops at the first round that reports no change. A round does not compare the match that it
leaves with the one that it was given: it compares lengths as it goes, of one list at a time, before
and after something is kept of it. Nor does it go through a list to see whether a node is there: it
looks the node up by halving, which asks for an ascending list. On a match that has the shape of its
chain, with its candidates in ascending order, neither misses anything.

* `NodeSet.search`, `NodeSet.Ascending.search_iff`: looking up by halving.
* `thin?`, `Thinned.or_ne`: lists that are thinned one by one, with a report that adds up.
* `Matched.report?`, `Matched.report?_eq`: a round that reports whether it changes anything.
* `Matched.pruneLoop?`, `Matched.loop?_eq`: rounds up to the first that reports no change.
* `Matched.prune_greatest`: they come to an end, at the greatest settled part.
-/

namespace CodeGraph

/-! ### Looking up by halving -/

/-- Whether a node is in a list, found out by halving: the node in the middle tells in which half to
go on. -/
def NodeSet.search (set : List NodeId) (id : NodeId) : Bool :=
  if h : set.length ≤ 1 then set.head? == some id
  else if id.index < set[set.length / 2].index
    then search (set.take (set.length - set.length / 2)) id
  else search (set.drop (set.length / 2)) id
termination_by set.length
decreasing_by
  · rw [List.length_take]
    omega
  · rw [List.length_drop]
    omega

/-- In an ascending list a node comes no later than one with a greater name. -/
lemma NodeSet.Ascending.le_of_index_le {set : List NodeId} (h : NodeSet.Ascending set) {i j : Nat}
    (hi : i < set.length)
    (hj : j < set.length) (hle : set[i].index ≤ set[j].index) : i ≤ j := by
  by_contra hlt
  have hless := List.pairwise_iff_getElem.1 h j i hj hi (by omega)
  omega

/-- **In an ascending list** a node is found exactly if it is there. -/
lemma NodeSet.Ascending.search_iff {set : List NodeId} (h : NodeSet.Ascending set) (id : NodeId) :
    NodeSet.search set id ↔ id ∈ set := by
  fun_induction NodeSet.search set id with
  | case1 set hone =>
      obtain _ | ⟨x, _ | ⟨y, rest⟩⟩ := set
      · simp
      · rw [List.head?_cons, beq_iff_eq, Option.some_inj, List.mem_singleton, eq_comm]
      · simp at hone
  | case2 set hseveral hlt ih =>
      rw [ih (h.sublist (List.take_sublist _ _))]
      refine ⟨List.mem_of_mem_take, fun hmem => ?_⟩
      obtain ⟨j, hj, rfl⟩ := List.getElem_of_mem hmem
      have hle : j ≤ set.length / 2 := h.le_of_index_le hj (by omega) hlt.le
      have hne : j ≠ set.length / 2 := by
        rintro rfl
        exact Nat.lt_irrefl _ hlt
      exact List.mem_take_iff_getElem.2 ⟨j, by omega, rfl⟩
  | case3 set hseveral hge ih =>
      rw [ih (h.sublist (List.drop_sublist _ _))]
      refine ⟨List.mem_of_mem_drop, fun hmem => ?_⟩
      obtain ⟨j, hj, rfl⟩ := List.getElem_of_mem hmem
      have hle : set.length / 2 ≤ j := h.le_of_index_le (by omega) hj (Nat.le_of_not_lt hge)
      exact List.mem_drop_iff_getElem.2
        ⟨j - set.length / 2, by omega, by simp [Nat.add_sub_cancel' hle]⟩

namespace NodeSet

/-- The members of a list that are found in another one. -/
def intersect (set sorted : List NodeId) : List NodeId := set.filter (search sorted)

lemma intersect_eq {sorted : List NodeId} (h : Ascending sorted) (set : List NodeId) :
    intersect set sorted = inter set sorted :=
  List.filter_congr fun id _ => by rw [Bool.eq_iff_iff, h.search_iff, decide_eq_true_iff]

/-- It makes no difference whether a list is put in order before it is met with another one. -/
lemma inter_ofList (set ids : List NodeId) : inter set (ofList ids) = inter set ids :=
  List.filter_congr fun _ _ => decide_eq_decide.2 mem_ofList

end NodeSet

/-! ### Reports -/

section Reports

variable {α : Type} [DecidableEq α] {xs ys zs : List (List α)}

/-- What was taken away is not put back: something is missing in the end if it was at one of two
times. -/
lemma Thinned.or_ne (h : Thinned ys xs) (h' : Thinned zs ys) (changed : Bool) :
    ((changed || decide (ys ≠ xs)) || decide (zs ≠ ys)) = (changed || decide (zs ≠ xs)) := by
  rw [Bool.or_assoc]
  congr 1
  by_cases hzx : zs = xs
  · subst hzx
    have hle := h.length_flatten_le
    have hle' := h'.length_flatten_le
    obtain rfl := h.eq_of_length_flatten_eq (by omega)
    simp
  · by_cases hyx : ys = xs
    · subst hyx
      simp [hzx]
    · simp [hzx, hyx]

/-- A list that is part of another one is shorter exactly if it differs. -/
lemma length_bne_of_sublist {xs ys : List α} (h : ys.Sublist xs) :
    (xs.length != ys.length) = decide (ys ≠ xs) := by
  rw [Bool.eq_iff_iff, bne_iff_ne, decide_eq_true_iff]
  exact not_congr ⟨fun hlen => h.eq_of_length hlen.symm, fun heq => heq ▸ rfl⟩

/-- Keeps a part of each of some lists, of which the first is at place `k`, and reports whether one
of them got shorter. -/
def thin? {α : Type} (keep? : Nat → List α → Option (List α)) (k : Nat) (changed : Bool) :
    List (List α) → Option (List (List α) × Bool)
  | [] => some ([], changed)
  | xs :: rest => do
    let kept ← keep? k xs
    let later ← thin? keep? (k + 1) (changed || xs.length != kept.length) rest
    some (kept :: later.1, later.2)

/-- What is kept of the lists one by one is kept of all of them, and reported. -/
lemma thin?_eq {keep? : Nat → List α → Option (List α)} (h : Thinned ys xs) {k : Nat}
    (hkeep : ∀ (i : Nat) x y, xs[i]? = some x → ys[i]? = some y → keep? (k + i) x = some y)
    (changed : Bool) :
    thin? keep? k changed xs = some (ys, changed || decide (ys ≠ xs)) := by
  induction h generalizing k changed with
  | nil => simp [thin?]
  | @cons y x ys xs hsub hrest ih =>
      have hfirst : keep? k x = some y := hkeep 0 x y rfl rfl
      have hlater : ∀ (i : Nat) x y, xs[i]? = some x → ys[i]? = some y →
          keep? (k + 1 + i) x = some y := by
        intro i x y hx hy
        rw [Nat.add_right_comm]
        exact hkeep (i + 1) x y hx hy
      rw [thin?, hfirst, Option.bind_eq_bind, Option.bind_some, ih hlater,
        length_bne_of_sublist hsub, Bool.or_assoc]
      by_cases hy : y = x <;> simp [hy]

end Reports

namespace Matched

variable {c : Chain} {m : Matched} {positions : List NodeSet}
  {pairs : List (List (NodeId × NodeId))}

/-! ### A round that reports -/

/-- Keeps the pairs whose ends are found at the places of their step and of the next. -/
def reportPairs? (positions : List NodeSet) (pairs : List (List (NodeId × NodeId)))
    (changed : Bool) :
    Option (List (List (NodeId × NodeId)) × Bool) :=
  thin? (fun i step => do
    let previous ← positions[i]?
    let next ← positions[i + 1]?
    some (step.filter fun p => NodeSet.search previous p.1 && NodeSet.search next p.2)) 0
      changed pairs

/-- Keeps at each place up to the last the candidates that are found among the ends of the step
before, if there is one, and then among the starts of the step after, if there is one. -/
def reportNodes? (last : Nat) (positions : List NodeSet) (pairs : List (List (NodeId × NodeId)))
    (changed : Bool) :
    Option (List NodeSet × Bool) :=
  thin? (fun k set => do
    let left ←
      if 0 < k then do
        let before ← pairs[← before? k]?
        some (NodeSet.intersect set (NodeSet.ofList (before.map Prod.snd)))
      else some set
    if k < last then do
      let after ← pairs[k]?
      some (NodeSet.intersect left (NodeSet.ofList (after.map Prod.fst)))
    else some left) 0 changed positions

/-- The candidates of a place that are found at all of some others. -/
def found? (positions : List NodeSet) : List Nat → Option NodeSet
  | [] => none
  | first :: rest => do
    let set ← positions[first]?
    rest.foldlM (fun common k => (positions[k]?).map (NodeSet.intersect common)) set

/-- Puts a set at each of some places, and reports whether it is shorter than the one that was
there. -/
def putAll? (set : NodeSet) (group : List Nat) (positions : List NodeSet) (changed : Bool) :
    Option (List NodeSet × Bool) :=
  group.foldlM (fun r k => (r.1[k]?).map fun old =>
    (r.1.set k set, r.2 || old.length != set.length))
    (positions, changed)

/-- Gives the positions of a variable the candidates that are found at all of them, if there are
several. -/
def reportOf? (c : Chain) (r : List NodeSet × Bool) (name : String) :
    Option (List NodeSet × Bool) :=
  let group := c.positionsOf name
  if 1 < group.length then do
    let common ← found? r.1 group
    putAll? common group r.1 r.2
  else some r

/-- The three demands once. The second part of the result reports whether anything was taken away:
of the pairs of a step, of the candidates of a place, or of those of a place that shares its
variable. -/
def report? (c : Chain) (last : Nat) (m : Matched) : Option (Matched × Bool) := do
  let pairs ← reportPairs? m.positions m.pairs false
  let nodes ← reportNodes? last m.positions pairs.1 pairs.2
  let shared ← c.vars.foldlM (reportOf? c) nodes
  some (⟨shared.1, pairs.1⟩, shared.2)

lemma reportPairs?_eq (h : positions.length = pairs.length + 1)
    (hascending : ∀ set ∈ positions, NodeSet.Ascending set) (changed : Bool) :
    reportPairs? positions pairs changed
      = some (keepPairs positions pairs,
        changed || decide (keepPairs positions pairs ≠ pairs)) := by
  refine thin?_eq (keepPairs_thinned positions pairs) (fun i step kept hstep hkept => ?_) changed
  rw [Nat.zero_add]
  have hi : i < pairs.length := (List.getElem?_eq_some_iff.1 hstep).1
  have hget := getD_keepPairs h i
  have hbefore : positions[i]? = some positions[i] := List.getElem?_eq_getElem (by omega)
  have hafter : positions[i + 1]? = some positions[i + 1] := List.getElem?_eq_getElem (by omega)
  simp only [List.getD_eq_getElem?_getD, hkept, hstep, hbefore, hafter, Option.getD_some] at hget
  rw [hbefore, hafter, hget, Option.bind_eq_bind, Option.bind_some, Option.bind_some]
  refine congrArg some (List.filter_congr fun p _ => ?_)
  rw [Bool.eq_iff_iff, Bool.and_eq_true, (hascending _ (List.getElem_mem _)).search_iff,
    (hascending _ (List.getElem_mem _)).search_iff, decide_eq_true_iff]

lemma reportNodes?_eq (h : positions.length = pairs.length + 1) (changed : Bool) :
    reportNodes? pairs.length positions pairs changed
      = some (keepNodes none positions pairs,
        changed || decide (keepNodes none positions pairs ≠ positions)) := by
  refine thin?_eq (keepNodes_thinned none positions pairs) (fun k set kept hset hkept => ?_) changed
  have hlt : k < positions.length := (List.getElem?_eq_some_iff.1 hset).1
  rw [getElem?_keepNodes h, hset] at hkept
  cases hkept
  have hordered : ∀ set ids, NodeSet.intersect set (NodeSet.ofList ids) = NodeSet.inter set ids :=
    fun set ids => by
    rw [NodeSet.intersect_eq (NodeSet.ascending_ofList ids), NodeSet.inter_ofList]
  simp only [hordered, Nat.zero_add]
  exact keepNode?_eq (by omega) set

/-- In positions that are in ascending order, what is found is what is shared. -/
lemma found?_eq (hascending : ∀ set ∈ positions, NodeSet.Ascending set) (group : List Nat) :
    found? positions group = common? positions group := by
  have hmeet : ∀ (common : NodeSet) (k : Nat),
      (positions[k]?).map (NodeSet.intersect common)
        = (positions[k]?).map (NodeSet.inter common) := by
    intro common k
    cases hk : positions[k]? with
    | none => rfl
    | some set =>
        exact congrArg some (NodeSet.intersect_eq (hascending set (List.mem_of_getElem? hk)) common)
  cases group with
  | nil => rfl
  | cons first rest => simp only [found?, common?, hmeet]

lemma set_thinned {α : Type} {xs : List (List α)} {k : Nat} {old new : List α}
    (hk : xs[k]? = some old)
    (hsub : new.Sublist old) : Thinned (xs.set k new) xs := by
  induction xs generalizing k with
  | nil => cases hk
  | cons x rest ih =>
      cases k with
      | zero =>
          cases hk
          exact .cons hsub (Thinned.refl rest)
      | succ k => exact .cons (List.Sublist.refl x) (ih hk)

/-- A set that is part of what is at each of some places is put there, and reported if it is not
what is there. -/
lemma putAll?_eq {set : NodeSet} {group : List Nat}
    (h : ∀ k ∈ group, ∃ old, positions[k]? = some old ∧ set.Sublist old) (changed : Bool) :
    ∃ positions', group.foldlM (fun positions k => updateAt? positions k fun _ => set) positions
      = some positions'
      ∧ Thinned positions' positions
      ∧ putAll? set group positions changed
        = some (positions', changed || decide (positions' ≠ positions)) := by
  induction group generalizing positions changed with
  | nil => exact ⟨positions, rfl, .refl _, by simp [putAll?]⟩
  | cons first rest ih =>
      obtain ⟨old, hold, hsub⟩ := h first List.mem_cons_self
      have hfirst : first < positions.length := (List.getElem?_eq_some_iff.1 hold).1
      have hrest : ∀ k ∈ rest, ∃ old, (positions.set first set)[k]? = some old
          ∧ set.Sublist old := by
        intro k hk
        by_cases heq : first = k
        · subst heq
          exact ⟨set, List.getElem?_set_self hfirst, List.Sublist.refl set⟩
        · rw [List.getElem?_set_ne heq]
          exact h k (List.mem_cons_of_mem _ hk)
      have hdiffers : (old.length != set.length)
          = decide (positions.set first set ≠ positions) := by
        rw [length_bne_of_sublist hsub, decide_eq_decide]
        refine not_congr ⟨fun heq => ?_, fun heq => ?_⟩
        · obtain ⟨_, hget⟩ := List.getElem?_eq_some_iff.1 hold
          rw [heq, ← hget]
          exact List.set_getElem_self hfirst
        · have hget : (positions.set first set)[first]? = some set := List.getElem?_set_self hfirst
          rw [heq, hold] at hget
          exact (Option.some.inj hget).symm
      have hput := set_thinned hold hsub
      obtain ⟨positions', heq, hthinned, hreport⟩ :=
        ih hrest (changed || decide (positions.set first set ≠ positions))
      refine ⟨positions', ?_, hthinned.trans hput, ?_⟩
      · simpa [List.foldlM_cons, updateAt?, hold] using heq
      · rw [putAll?, List.foldlM_cons, hold, Option.map_some, hdiffers, Option.bind_eq_bind,
          Option.bind_some, ← putAll?, hreport, hput.or_ne hthinned]

/-- Sharing between the positions of a variable takes candidates away, and reports it. -/
lemma reportOf?_eq (hlen : positions.length = c.nodes.length)
    (hascending : ∀ set ∈ positions, NodeSet.Ascending set) (name : String) (changed : Bool) :
    ∃ positions', shareOf? c positions name = some positions' ∧ Thinned positions' positions
      ∧ reportOf? c (positions, changed) name
        = some (positions', changed || decide (positions' ≠ positions)) := by
  rw [shareOf?, reportOf?]
  split
  · rename_i hseveral
    have hgroup : c.positionsOf name ≠ [] := fun hnil => by simp [hnil] at hseveral
    have hin : ∀ k ∈ c.positionsOf name, k < positions.length := by
      intro k hk
      obtain ⟨n, hn, -⟩ := Chain.mem_positionsOf.1 hk
      exact hlen ▸ (List.getElem?_eq_some_iff.1 hn).1
    obtain ⟨set, hset, hsetAscending, hmem⟩ := common?_spec hascending hgroup hin
    have hpart : ∀ k ∈ c.positionsOf name, ∃ old, positions[k]? = some old ∧ set.Sublist old := by
      intro k hk
      have hlt := hin k hk
      have hold : positions[k]? = some positions[k] := List.getElem?_eq_getElem hlt
      refine ⟨_, hold,
        hsetAscending.sublist_of_subset (hascending _ (List.getElem_mem _)) fun id hid => ?_⟩
      simpa [List.getD_eq_getElem?_getD, hold] using (hmem id).1 hid k hk
    obtain ⟨positions', heq, hthinned, hreport⟩ := putAll?_eq hpart changed
    refine ⟨positions', by simpa [share?, hset] using heq, hthinned, ?_⟩
    simpa [found?_eq hascending, hset] using hreport
  · exact ⟨positions, rfl, .refl _, by simp⟩

/-- Sharing between the positions of one variable after the other is reported as a whole. -/
lemma foldlM_reportOf?_eq (hlen : positions.length = c.nodes.length)
    (hascending : ∀ set ∈ positions, NodeSet.Ascending set) (names : List String) (changed : Bool) :
    ∃ positions', names.foldlM (shareOf? c) positions = some positions'
      ∧ Thinned positions' positions
      ∧ names.foldlM (reportOf? c) (positions, changed)
        = some (positions', changed || decide (positions' ≠ positions)) := by
  induction names generalizing positions changed with
  | nil => exact ⟨positions, rfl, .refl _, by simp⟩
  | cons name rest ih =>
      obtain ⟨next, hstep, hthinned, hreport⟩ := reportOf?_eq hlen hascending name changed
      obtain ⟨positions', heq, hthinned', hreport'⟩ :=
        ih (hthinned.length_eq.trans hlen) (hthinned.ascending hascending)
          (changed || decide (next ≠ positions))
      refine ⟨positions', by simpa [List.foldlM_cons, hstep] using heq,
        hthinned'.trans hthinned, ?_⟩
      rw [List.foldlM_cons, hreport, Option.bind_eq_bind, Option.bind_some, hreport',
        hthinned.or_ne hthinned']

lemma foldlM_reportOf?_vars (hlen : positions.length = c.nodes.length)
    (hascending : ∀ set ∈ positions, NodeSet.Ascending set) (changed : Bool) :
    c.vars.foldlM (reportOf? c) (positions, changed)
      = some (shareNodes c positions, changed || decide (shareNodes c positions ≠ positions)) := by
  obtain ⟨positions', heq, -, hreport⟩ := foldlM_reportOf?_eq hlen hascending c.vars changed
  have hshared : c.vars.foldlM (shareOf? c) positions = some (shareNodes c positions) :=
    shareNodes?_eq hlen hascending
  cases heq.symm.trans hshared
  exact hreport

/-- **A round reports exactly whether it changes anything**, of a match that has the shape of its
chain. -/
theorem report?_eq (h : Shaped c m) (hascending : ∀ set ∈ m.positions, NodeSet.Ascending set) :
    report? c c.steps.length m = some (round c m, decide (round c m ≠ m)) := by
  have hlen : m.positions.length = m.pairs.length + 1 := by rw [h.positions, h.pairs, h.fits]
  have hpairs : (keepPairs m.positions m.pairs).length = c.steps.length :=
    (keepPairs_thinned m.positions m.pairs).length_eq.trans h.pairs
  have hkeep : m.positions.length = (keepPairs m.positions m.pairs).length + 1 := by
    rw [hpairs, h.positions, h.fits]
  have hnodes := reportNodes?_eq hkeep
  have hthinned := keepNodes_thinned none m.positions (keepPairs m.positions m.pairs)
  have hkept := hthinned.length_eq.trans h.positions
  rw [hpairs] at hnodes
  have hround : round c m = m ↔ keepPairs m.positions m.pairs = m.pairs
      ∧ shareNodes c (keepNodes none m.positions (keepPairs m.positions m.pairs))
        = m.positions := by
    cases m
    rw [round, Matched.mk.injEq, and_comm]
  have hshared := foldlM_reportOf?_vars hkept (hthinned.ascending hascending)
  simp only [report?, reportPairs?_eq hlen hascending, hnodes, hshared, Option.bind_eq_bind,
    Option.bind_some, Bool.false_or, hthinned.or_ne (shareNodes_thinned hkept)]
  refine congrArg some (Prod.ext rfl ?_)
  rw [Bool.eq_iff_iff, Bool.or_eq_true, decide_eq_true_iff, decide_eq_true_iff, decide_eq_true_iff,
    Ne, Ne, Ne, hround, not_and_or]

/-! ### Rounds up to the first that reports no change -/

/-- Rounds up to the first that reports no change, and how many they were, counted on from `rounds`.
Nothing comes of it if `fuel` rounds are not enough. -/
def loop? (c : Chain) (last : Nat) : (fuel rounds : Nat) → Matched → Option (Matched × Nat)
  | 0, _, _ => none
  | fuel + 1, rounds, m => do
    let next ← report? c last m
    if next.2 then loop? c last fuel (rounds + 1) next.1 else some (next.1, rounds + 1)

/-- Prunes a match in rounds, and counts them. Nothing comes of it if `fuel` rounds are not enough.
-/
def pruneLoop? (fuel : Nat) (c : Chain) (m : Matched) : Option (Matched × Nat) := do
  let last ← before? m.positions.length
  loop? c last fuel 0 m

/-- **A round that changes anything takes something away.** -/
lemma size_round_lt (h : Shaped c m) (hchanged : round c m ≠ m) : (round c m).size < m.size :=
  lt_of_le_of_ne (round_partOf h).size_le fun hsize =>
    hchanged ((round_partOf h).eq_of_size_eq hsize)

/-- A round is followed by another one if it changes anything. -/
lemma loop?_succ (h : Shaped c m) (hascending : ∀ set ∈ m.positions, NodeSet.Ascending set)
    (fuel rounds : Nat) :
    loop? c c.steps.length (fuel + 1) rounds m
      = if round c m = m then some (m, rounds + 1)
        else loop? c c.steps.length fuel (rounds + 1) (round c m) := by
  rw [loop?, report?_eq h hascending, Option.bind_eq_bind, Option.bind_some]
  by_cases hround : round c m = m
  · simp [hround]
  · simp [hround]

/-- The rounds come to an end, with what settling leaves. Each but the last has taken something
away, so how many they are does not depend on how many more there might be. -/
lemma loop?_eq (h : Shaped c m) (hascending : ∀ set ∈ m.positions, NodeSet.Ascending set)
    {bound : Nat} (hbound : m.size < bound) :
    ∃ more, more + (settle c bound m).size ≤ m.size + 1 ∧ ∀ fuel rounds, more ≤ fuel →
      loop? c c.steps.length fuel rounds m = some (settle c bound m, rounds + more) := by
  induction bound generalizing m with
  | zero => omega
  | succ bound ih =>
      have hpart := round_partOf h
      rw [settle]
      by_cases hround : round c m = m
      · refine ⟨1, by simp [hround, Nat.add_comm], fun fuel rounds hfuel => ?_⟩
        obtain ⟨fuel, rfl⟩ := Nat.exists_eq_add_of_le' hfuel
        simp [loop?_succ h hascending, hround]
      · have hlt := size_round_lt h hround
        obtain ⟨more, hmore, hloop⟩ := ih (hpart.shaped h) (hpart.ascending hascending) (by omega)
        rw [if_neg hlt.ne]
        refine ⟨more + 1, by omega, fun fuel rounds hfuel => ?_⟩
        obtain ⟨fuel, rfl⟩ := Nat.exists_eq_add_of_le' (Nat.le_of_add_left_le hfuel)
        rw [loop?_succ h hascending, if_neg hround, hloop fuel (rounds + 1) (by omega)]
        simp only [Nat.add_assoc, Nat.add_comm 1]

lemma pruneLoop?_of_shaped (h : Shaped c m) (fuel : Nat) :
    pruneLoop? fuel c m = loop? c c.steps.length fuel 0 m := by
  rw [pruneLoop?, h.positions, h.fits]
  rfl

lemma pruneLoop?_eq (h : Shaped c m) (hascending : ∀ set ∈ m.positions, NodeSet.Ascending set) :
    ∃ rounds, rounds + (prune c m).size ≤ m.size + 1 ∧ ∀ fuel, rounds ≤ fuel →
      pruneLoop? fuel c m = some (prune c m, rounds) := by
  obtain ⟨rounds, hrounds, hloop⟩ := loop?_eq h hascending (Nat.lt_succ_self m.size)
  refine ⟨rounds, hrounds, fun fuel hfuel => ?_⟩
  rw [pruneLoop?_of_shaped h, hloop fuel 0 hfuel, prune, Nat.zero_add]

/-- A match that a round does not change is left after that round. -/
lemma pruneLoop?_of_stable (h : Shaped c m)
    (hascending : ∀ set ∈ m.positions, NodeSet.Ascending set)
    (hround : round c m = m) (fuel : Nat) : pruneLoop? (fuel + 1) c m = some (m, 1) := by
  rw [pruneLoop?_of_shaped h, loop?_succ h hascending, if_pos hround]

/-- **Pruning comes to an end, at the greatest settled part.** Take a match that has the shape of
its chain, with candidates in ascending order. In every part of it, such as the rounds leave one
after the other, a round reports exactly whether it changes anything, and where it does fewer
candidates and pairs are left. So the rounds come to an end: there are no more of them than there is
to take away, and the one that reports no change, and it makes no difference how many more there
might be. What is left is settled, and every settled part of the match is part of it, each position
and each list of pairs in its order. Pruned again it stays as it is, in a single round. Where no
variable is repeated, every candidate that is left is on a row of pairs that are left. -/
theorem prune_greatest (hm : Shaped c m) (hascending : ∀ set ∈ m.positions, NodeSet.Ascending set) :
    (∀ part : Matched, part.PartOf m → ∃ changed,
      report? c c.steps.length part = some (round c part, changed)
        ∧ (round c part).PartOf part ∧ (changed = true ↔ round c part ≠ part)
        ∧ (changed = true → (round c part).size < part.size))
      ∧ (∃ rounds, rounds + (prune c m).size ≤ m.size + 1 ∧ ∀ fuel, rounds ≤ fuel →
        pruneLoop? fuel c m = some (prune c m, rounds))
      ∧ IsGreatestSettled c m (prune c m)
      ∧ prune c (prune c m) = prune c m
      ∧ (∀ fuel, pruneLoop? (fuel + 1) c (prune c m) = some (prune c m, 1))
      ∧ ((c.nodes.map ChainNode.name).Nodup → ∀ (k : Nat) id, id ∈ (prune c m).positions.getD k [] →
        ∃ r, Threads c (prune c m) r ∧ r[k]? = some id) := by
  have hgreatest := isGreatestSettled_prune hm hascending
  have hpruned := hgreatest.partOf.shaped hm
  have hordered := hgreatest.partOf.ascending hascending
  have hagain := prune_of_settled hpruned hordered hgreatest.settled
  refine ⟨fun part hpart => ?_, pruneLoop?_eq hm hascending, hgreatest, hagain,
    pruneLoop?_of_stable hpruned hordered (prune_stable hm), fun hnames k id hid => ?_⟩
  · have hshaped := hpart.shaped hm
    refine ⟨_, report?_eq hshaped (hpart.ascending hascending), round_partOf hshaped,
      decide_eq_true_iff, fun h => ?_⟩
    exact size_round_lt hshaped (of_decide_eq_true h)
  · obtain ⟨r, hlength, hr, halong⟩ := hgreatest.settled.exists_along hpruned hid
    exact ⟨r, halong.threads hlength (Chain.agrees_of_nodup hnames r), hr⟩

/-- A chain that comes back to its first variable: two of its three ways end at another node than
they began with, and go in three rounds, as each round sees only what is missing after the one
before. -/
theorem prune_greatest_of_loop :
    let c : Chain :=
      { nodes := [{ name := "f" }, { name := "g" }, { name := "f" }]
        steps := [{ direction := .outgoing }, { direction := .outgoing }] }
    let m : Matched :=
      { positions := [[⟨0⟩, ⟨1⟩, ⟨2⟩], [⟨1⟩, ⟨2⟩, ⟨3⟩], [⟨0⟩, ⟨2⟩, ⟨4⟩]]
        pairs := [[(⟨2⟩, ⟨3⟩), (⟨0⟩, ⟨1⟩), (⟨1⟩, ⟨2⟩), (⟨0⟩, ⟨1⟩)],
          [(⟨1⟩, ⟨0⟩), (⟨2⟩, ⟨2⟩), (⟨3⟩, ⟨4⟩)]] }
    let left : Matched :=
      { positions := [[⟨0⟩], [⟨1⟩], [⟨0⟩]], pairs := [[(⟨0⟩, ⟨1⟩), (⟨0⟩, ⟨1⟩)], [(⟨1⟩, ⟨0⟩)]] }
    Shaped c m ∧ (∀ set ∈ m.positions, NodeSet.Ascending set) ∧ IsGreatestSettled c m left
      ∧ (∃ rounds, rounds ≤ 11 ∧ pruneLoop? 11 c m = some (left, rounds))
      ∧ pruneLoop? 1 c left = some (left, 1) := by
  intro c m left
  have hm : Shaped c m := ⟨rfl, rfl, rfl⟩
  have hascending : ∀ set ∈ m.positions, NodeSet.Ascending set := by
    simp [m, NodeSet.Ascending]
  have hleft : prune c m = left := by decide +kernel
  obtain ⟨-, ⟨rounds, hrounds, hloop⟩, hgreatest, -, hagain, -⟩ := prune_greatest hm hascending
  rw [hleft] at hloop hrounds hgreatest hagain
  have hfew : rounds ≤ 11 := Nat.le_of_add_le_add_right hrounds
  exact ⟨hm, hascending, hgreatest, ⟨rounds, hfew, hloop 11 hfew⟩, hagain 0⟩

end Matched
end CodeGraph
