import CodeGraph.Proofs.SurvivingPairs

/-!
Pruning, with every place checked.

Pruning goes by places: the pairs of the step before a position, the positions of a variable, the
last position of all. Here a place that is not there is a failure, as is a place before the first
and a round too many. On a match that has the shape of its chain nothing fails, and what comes out
is what `Matched.prune` computes.

* `before?`, `updateAt?`: a place before another, and a list that is changed at a place.
* `Matched.keepPairs?`, `Matched.keepNodes?`, `Matched.shareNodes?`: the three demands, place by
  place.
* `Matched.round?_eq`, `Matched.prune?_eq`: in a match that has the shape of its chain no place is
  missing.
-/

namespace CodeGraph

/-! ### Places -/

/-- The place before another. There is none before the first. -/
def before? : Nat → Option Nat
  | 0 => none
  | k + 1 => some k

/-- A list in which the member at a place is replaced by what a function makes of it. -/
def updateAt? {α : Type} (xs : List α) (k : Nat) (f : α → α) : Option (List α) :=
  (xs[k]?).map fun x => xs.set k (f x)

lemma mapM_some {α β : Type} (f : α → β) (xs : List α) :
    xs.mapM (fun x => some (f x)) = some (xs.map f) :=
  List.mapM_pure

/-- What is made of the members of a list one by one, if something is made of each. -/
lemma mapM_eq_some {α β : Type} {f : α → Option β} {xs : List α} {ys : List β}
    (hlen : xs.length = ys.length)
    (h : ∀ (i : Nat) x y, xs[i]? = some x → ys[i]? = some y → f x = some y) :
    xs.mapM f = some ys := by
  induction xs generalizing ys with
  | nil =>
      obtain rfl : ys = [] := List.eq_nil_of_length_eq_zero hlen.symm
      rfl
  | cons x rest ih =>
      obtain _ | ⟨y, ys⟩ := ys
      · cases hlen
      · have hrest : rest.mapM f = some ys :=
          ih (by simpa using hlen) fun i x' y' hx hy =>
            h (i + 1) x' y' (by simpa using hx) (by simpa using hy)
        simp [List.mapM_cons, h 0 x y rfl rfl, hrest]

/-- Positions that hold the same nodes, each in ascending order, are the same. -/
lemma NodeSet.eq_of_mem_iff {xs ys : List NodeSet} (hlen : xs.length = ys.length)
    (hxs : ∀ set ∈ xs, NodeSet.Ascending set) (hys : ∀ set ∈ ys, NodeSet.Ascending set)
    (h : ∀ (k : Nat) (id : NodeId), id ∈ xs.getD k [] ↔ id ∈ ys.getD k []) : xs = ys := by
  refine List.ext_getElem hlen fun k hk hk' => ?_
  refine (hxs _ (List.getElem_mem hk)).ext (hys _ (List.getElem_mem hk')) fun id => ?_
  simpa [List.getD_eq_getElem?_getD, hk, hk'] using h k id

namespace Chain

lemma mem_foldl_noteName {x : String} (nodes : List ChainNode) (names : List String) :
    x ∈ nodes.foldl (fun names n => Expr.noteName names n.name) names
      ↔ x ∈ names ∨ ∃ n ∈ nodes, x = n.name := by
  induction nodes generalizing names with
  | nil => simp
  | cons n rest ih =>
      rw [List.foldl_cons, ih, Expr.mem_noteName, List.exists_mem_cons_iff, or_assoc]

lemma mem_vars {c : Chain} {n : ChainNode} (hn : n ∈ c.nodes) : n.name ∈ c.vars :=
  (mem_foldl_noteName c.nodes []).2 (.inr ⟨n, hn, rfl⟩)

lemma nodup_vars (c : Chain) : c.vars.Nodup := by
  have key : ∀ (nodes : List ChainNode) (names : List String), names.Nodup →
      (nodes.foldl (fun names n => Expr.noteName names n.name) names).Nodup := by
    intro nodes
    induction nodes with
    | nil => exact fun _ hnames => hnames
    | cons n rest ih => exact fun names hnames => ih _ (Expr.nodup_noteName hnames n.name)
  exact key c.nodes [] List.nodup_nil

end Chain

namespace Matched

variable {c : Chain} {m : Matched} {positions : List NodeSet}
  {pairs : List (List (NodeId × NodeId))}

/-! ### Pairs whose ends are left -/

/-- Keeps the pairs whose ends are candidates at the places of their step and of the next. -/
def keepPairs? (positions : List NodeSet) (pairs : List (List (NodeId × NodeId))) :
    Option (List (List (NodeId × NodeId))) :=
  pairs.zipIdx.mapM fun (step, i) => do
    let previous ← positions[i]?
    let next ← positions[i + 1]?
    some (step.filter fun p => p.1 ∈ previous ∧ p.2 ∈ next)

lemma keepPairs?_eq (h : positions.length = pairs.length + 1) :
    keepPairs? positions pairs = some (keepPairs positions pairs) := by
  have hlen := (keepPairs_thinned positions pairs).length_eq
  refine mapM_eq_some (by rw [List.length_zipIdx, hlen]) fun i entry kept hentry hkept => ?_
  obtain ⟨step, j⟩ := entry
  obtain ⟨hstep, rfl⟩ : pairs[i]? = some step
      ∧ i = j := by simpa [List.getElem?_zipIdx] using hentry
  have hi : i < pairs.length := (List.getElem?_eq_some_iff.1 hstep).1
  have hget := getD_keepPairs h i
  simp only [List.getD_eq_getElem?_getD, hkept, hstep, Option.getD_some] at hget
  have hbefore : positions[i]? = some positions[i] := List.getElem?_eq_getElem (by omega)
  have hafter : positions[i + 1]? = some positions[i + 1] := List.getElem?_eq_getElem (by omega)
  simp [hbefore, hafter, hget]

/-! ### Candidates that have a pair on each side -/

/-- Keeps at each place up to the last the candidates that are an end of the pairs of the step
before, if there is one, and a start of those of the step after, if there is one. -/
def keepNodes? (last : Nat) (positions : List NodeSet) (pairs : List (List (NodeId × NodeId))) :
    Option (List NodeSet) :=
  (List.range (last + 1)).mapM fun k => do
    let set ← positions[k]?
    let set ←
      if 0 < k then do
        let before ← pairs[← before? k]?
        some (NodeSet.inter set (before.map Prod.snd))
      else some set
    if k < last then do
      let after ← pairs[k]?
      some (NodeSet.inter set (after.map Prod.fst))
    else some set

/-- What is kept at a place needs the step before it only if it is not the first, and the step after
it only if it is not the last. -/
lemma keepNode?_eq {k : Nat} (hk : k < pairs.length + 1) (set : NodeSet) :
    (do
      let left ←
        if 0 < k then do
          let before ← pairs[← before? k]?
          some (NodeSet.inter set (before.map Prod.snd))
        else some set
      if k < pairs.length then do
        let after ← pairs[k]?
        some (NodeSet.inter left (after.map Prod.fst))
      else some left)
    = some (
      let left := (stepBefore none pairs k).elim set fun l => NodeSet.inter set (l.map Prod.snd)
      (pairs[k]?).elim left fun l => NodeSet.inter left (l.map Prod.fst)) := by
  cases k with
  | zero =>
      by_cases hlast : 0 < pairs.length
      · simp [stepBefore, hlast]
      · simp [stepBefore, hlast]
  | succ k =>
      have hk : k < pairs.length := by omega
      by_cases hlast : k + 1 < pairs.length
      · simp [stepBefore, before?, hlast, List.getElem?_eq_getElem hk]
      · simp [stepBefore, before?, hlast, List.getElem?_eq_getElem hk]

lemma keepNodes?_eq (h : positions.length = pairs.length + 1) :
    keepNodes? pairs.length positions pairs = some (keepNodes none positions pairs) := by
  have hlen := (keepNodes_thinned none positions pairs).length_eq
  refine mapM_eq_some (by rw [List.length_range, hlen, h]) fun k k' kept hk hkept => ?_
  obtain ⟨hlt, rfl⟩ : k < pairs.length + 1 ∧ k = k' := by
    obtain ⟨hlt, hget⟩ := List.getElem?_eq_some_iff.1 hk
    exact ⟨by simpa using hlt, by simpa using hget⟩
  have hset : positions[k]? = some positions[k] := List.getElem?_eq_getElem (by omega)
  rw [getElem?_keepNodes h, hset] at hkept
  cases hkept
  rw [hset]
  exact keepNode?_eq hlt positions[k]

/-! ### Positions of one variable -/

/-- The candidates that some positions share. -/
def common? (positions : List NodeSet) : List Nat → Option NodeSet
  | [] => none
  | first :: rest => do
    let set ← positions[first]?
    rest.foldlM (fun common k => (positions[k]?).map (NodeSet.inter common)) set

/-- Gives some positions the candidates that they share. -/
def share? (positions : List NodeSet) (group : List Nat) : Option (List NodeSet) := do
  let common ← common? positions group
  group.foldlM (fun positions k => updateAt? positions k fun _ => common) positions

/-- Gives the positions of a variable the candidates that they share, if there are several. -/
def shareOf? (c : Chain) (positions : List NodeSet) (name : String) : Option (List NodeSet) :=
  let group := c.positionsOf name
  if 1 < group.length then share? positions group else some positions

/-- Gives the positions of each variable the candidates that they share. -/
def shareNodes? (c : Chain) (positions : List NodeSet) : Option (List NodeSet) :=
  c.vars.foldlM (shareOf? c) positions

lemma foldlM_inter_spec {rest : List Nat} (hin : ∀ k ∈ rest, k < positions.length) {set : NodeSet}
    (hset : NodeSet.Ascending set) :
    ∃ set', rest.foldlM (fun common k => (positions[k]?).map (NodeSet.inter common)) set = some set'
      ∧ NodeSet.Ascending set' ∧ ∀ id, id ∈ set' ↔ id ∈ set
      ∧ ∀ k ∈ rest, id ∈ positions.getD k [] := by
  induction rest generalizing set with
  | nil => exact ⟨set, rfl, hset, by simp⟩
  | cons k rest ih =>
      obtain ⟨other, hk⟩ : ∃ other, positions[k]? = some other :=
        ⟨_, List.getElem?_eq_getElem (hin k List.mem_cons_self)⟩
      have hinter : NodeSet.Ascending (NodeSet.inter set other) := hset.sublist List.filter_sublist
      obtain ⟨set', heq, hascending, hmem⟩ :=
        ih (fun i hi => hin i (List.mem_cons_of_mem _ hi)) hinter
      refine ⟨set', by simpa [List.foldlM_cons, hk] using heq, hascending, fun id => ?_⟩
      rw [hmem, List.forall_mem_cons, List.getD_eq_getElem?_getD, hk]
      simp [NodeSet.inter, and_assoc]

lemma common?_spec (hascending : ∀ set ∈ positions, NodeSet.Ascending set) {group : List Nat}
    (hgroup : group ≠ []) (hin : ∀ k ∈ group, k < positions.length) :
    ∃ set, common? positions group = some set ∧ NodeSet.Ascending set
      ∧ ∀ id, id ∈ set ↔ ∀ k ∈ group, id ∈ positions.getD k [] := by
  obtain ⟨first, rest, rfl⟩ := List.exists_cons_of_ne_nil hgroup
  rw [List.forall_mem_cons] at hin
  obtain ⟨set, hfirst⟩ : ∃ set, positions[first]? = some set := ⟨_, List.getElem?_eq_getElem hin.1⟩
  obtain ⟨set', heq, hset', hmem⟩ :=
    foldlM_inter_spec hin.2 (hascending set (List.mem_of_getElem? hfirst))
  refine ⟨set', by simpa [common?, hfirst] using heq, hset', fun id => ?_⟩
  rw [hmem, List.forall_mem_cons, List.getD_eq_getElem?_getD, hfirst]
  rfl

/-- Positions that are all given one set. -/
lemma foldlM_updateAt?_spec (set : NodeSet) {group : List Nat}
    (hin : ∀ k ∈ group, k < positions.length) :
    ∃ positions', group.foldlM (fun positions k => updateAt? positions k fun _ => set) positions
      = some positions'
      ∧ positions'.length = positions.length
      ∧ ∀ k, positions'.getD k [] = if k ∈ group then set else positions.getD k [] := by
  induction group generalizing positions with
  | nil => exact ⟨positions, rfl, rfl, by simp⟩
  | cons first rest ih =>
      have hfirst := hin first List.mem_cons_self
      have hrest : ∀ k ∈ rest, k < (positions.set first set).length := fun k hk => by
        simpa using hin k (List.mem_cons_of_mem _ hk)
      obtain ⟨positions', heq, hlen, hget⟩ := ih hrest
      refine ⟨positions', ?_, by simpa using hlen, fun k => ?_⟩
      · simpa [List.foldlM_cons, updateAt?, List.getElem?_eq_getElem hfirst] using heq
      · rw [hget]
        by_cases hk : k = first
        · subst hk
          simp [List.getD_eq_getElem?_getD, hfirst]
        · simp [List.getD_eq_getElem?_getD, List.getElem?_set_ne (Ne.symm hk), hk]

/-- Sharing leaves at each of the positions the candidates that all of them have, and the other
positions as they are. -/
lemma share?_spec (hascending : ∀ set ∈ positions, NodeSet.Ascending set) {group : List Nat}
    (hgroup : group ≠ []) (hin : ∀ k ∈ group, k < positions.length) :
    ∃ positions', share? positions group = some positions' ∧ positions'.length = positions.length
      ∧ (∀ k, NodeSet.Ascending (positions'.getD k []))
      ∧ ∀ k id, id ∈ positions'.getD k []
        ↔ id ∈ positions.getD k [] ∧ (k ∈ group → ∀ i ∈ group, id ∈ positions.getD i []) := by
  obtain ⟨set, hset, hsetAscending, hmem⟩ := common?_spec hascending hgroup hin
  obtain ⟨positions', heq, hlen, hget⟩ := foldlM_updateAt?_spec set hin
  refine ⟨positions', by simpa [share?, hset] using heq, hlen, fun k => ?_, fun k id => ?_⟩
  · rw [hget]
    split
    · exact hsetAscending
    · exact ascending_getD (m := ⟨positions, []⟩) hascending k
  · rw [hget]
    by_cases hk : k ∈ group
    · simp only [hk, if_true, forall_const, hmem]
      exact ⟨fun h => ⟨h k hk, h⟩, And.right⟩
    · simp [hk]

/-- The positions of some variables share their candidates, and nothing else is changed. -/
structure Shares (c : Chain) (names : List String)
    (positions positions' : List NodeSet) : Prop where
  length_eq : positions'.length = positions.length
  ascending : ∀ set ∈ positions', NodeSet.Ascending set
  mem_iff : ∀ k id, id ∈ positions'.getD k [] ↔ id ∈ positions.getD k []
    ∧ ∀ name ∈ names, k ∈ c.positionsOf name → ∀ i ∈ c.positionsOf name, id ∈ positions.getD i []

/-- Sharing between the positions of one more variable does not meet those of the variables before.
-/
lemma Shares.step {names : List String} {positions' : List NodeSet}
    (h : Shares c names positions positions') (hlen : positions.length = c.nodes.length)
    {name : String} (hname : name ∉ names) :
    ∃ positions'', shareOf? c positions' name = some positions''
      ∧ Shares c (names ++ [name]) positions positions'' := by
  -- the positions of the variable are still as they were
  have hkept : ∀ i ∈ c.positionsOf name, ∀ id, id ∈ positions'.getD i []
      ↔ id ∈ positions.getD i [] := by
    intro i hi id
    rw [h.mem_iff]
    refine and_iff_left fun name' hname' hi' => ?_
    obtain ⟨n, hn, rfl⟩ := Chain.mem_positionsOf.1 hi
    obtain ⟨n', hn', rfl⟩ := Chain.mem_positionsOf.1 hi'
    cases hn.symm.trans hn'
    exact absurd hname' hname
  have hmem : ∀ k id, (id ∈ positions'.getD k []
        ∧ (k ∈ c.positionsOf name → ∀ i ∈ c.positionsOf name, id ∈ positions.getD i []))
      ↔ id ∈ positions.getD k [] ∧ ∀ name' ∈ names ++ [name], k ∈ c.positionsOf name' →
        ∀ i ∈ c.positionsOf name', id ∈ positions.getD i [] := by
    intro k id
    rw [h.mem_iff, List.forall_mem_append, List.forall_mem_singleton, and_assoc]
  rw [shareOf?]
  split
  · rename_i hseveral
    have hin : ∀ k ∈ c.positionsOf name, k < positions'.length := by
      intro k hk
      obtain ⟨n, hn, -⟩ := Chain.mem_positionsOf.1 hk
      rw [h.length_eq, hlen]
      exact (List.getElem?_eq_some_iff.1 hn).1
    have hgroup : c.positionsOf name ≠ [] := fun hnil => by simp [hnil] at hseveral
    obtain ⟨positions'', heq, hlen'', hascending, hshared⟩ := share?_spec h.ascending hgroup hin
    refine ⟨positions'', heq, hlen''.trans h.length_eq, fun set hset => ?_, fun k id => ?_⟩
    · obtain ⟨k, hk⟩ := List.mem_iff_getElem?.1 hset
      simpa [List.getD_eq_getElem?_getD, hk] using hascending k
    · rw [hshared, ← hmem]
      refine and_congr_right fun _ => forall_congr' fun _ => forall₂_congr fun i hi => hkept i hi id
  · rename_i hone
    refine ⟨positions', rfl, h.length_eq, h.ascending, fun k id => ?_⟩
    rw [← hmem]
    refine (and_iff_left_of_imp fun hid hk i hi => ?_).symm
    -- a single position shares with itself
    obtain rfl : i = k := by
      have hle : (c.positionsOf name).length ≤ 1 := by omega
      obtain ⟨x, hx⟩ := List.length_eq_one_iff.1 (le_antisymm hle (List.length_pos_of_mem hk))
      rw [hx, List.mem_singleton] at hk hi
      rw [hk, hi]
    exact (hkept i hi id).1 hid

lemma shares_foldlM {positions' : List NodeSet} (hlen : positions.length = c.nodes.length)
    {names rest : List String} (hnames : (names ++ rest).Nodup)
    (h : Shares c names positions positions') :
    ∃ positions'', rest.foldlM (shareOf? c) positions' = some positions''
      ∧ Shares c (names ++ rest) positions positions'' := by
  induction rest generalizing names positions' with
  | nil => exact ⟨positions', rfl, by simpa using h⟩
  | cons name rest ih =>
      have hname : name ∉ names := fun hmem =>
        (List.nodup_append.1 hnames).2.2 name hmem name List.mem_cons_self rfl
      obtain ⟨positions'', hstep, hshares⟩ := h.step hlen hname
      obtain ⟨final, hfinal, hall⟩ := ih (by simpa using hnames) hshares
      exact ⟨final, by simpa [List.foldlM_cons, hstep] using hfinal, by simpa using hall⟩

/-- A candidate that is kept was had by all positions of its variable. -/
lemma mem_of_mem_shareNodes (hlen : positions.length = c.nodes.length) {k i : Nat} {id : NodeId}
    {name : String} (hid : id ∈ (shareNodes c positions).getD k []) (hk : k ∈ c.positionsOf name)
    (hi : i ∈ c.positionsOf name) :
    id ∈ positions.getD i [] := by
  have hkept := ((shareNodes_thinned hlen).sublist_getD k).subset hid
  obtain ⟨n, hn, hname⟩ := Chain.mem_positionsOf.1 hk
  obtain ⟨n', hn', hname'⟩ := Chain.mem_positionsOf.1 hi
  rw [shareNodes] at hid
  split at hid
  · have hset : ∀ {j : Nat} {x : ChainNode}, c.nodes[j]? = some x →
        ∃ set, positions[j]? = some set ∧ (c.nodes.zip positions)[j]? = some (x, set) := by
      intro j x hx
      have hj : j < positions.length := hlen ▸ (List.getElem?_eq_some_iff.1 hx).1
      exact ⟨_, List.getElem?_eq_getElem hj,
        List.getElem?_zip_eq_some.2 ⟨hx, List.getElem?_eq_getElem hj⟩⟩
    obtain ⟨set, hset', hzip⟩ := hset hn
    obtain ⟨other, hother, hzip'⟩ := hset hn'
    rw [List.getD_eq_getElem?_getD, List.getElem?_map, hzip] at hid
    have hall := (List.mem_filter.1 hid).2
    have hmem := List.all_eq_true.1 hall other (List.mem_map.2 ⟨(n', other),
      List.mem_filter.2 ⟨List.mem_of_getElem? hzip',
        decide_eq_true (hname'.trans hname.symm)⟩, rfl⟩)
    exact mem_getD.2 ⟨other, hother, of_decide_eq_true hmem⟩
  · rename_i hreused
    rwa [Chain.eq_of_name_eq (Chain.nodup_of_not_reused hreused) hn' hn (hname'.trans hname.symm)]

/-- **Sharing by places** is sharing. -/
lemma shareNodes?_eq (hlen : positions.length = c.nodes.length)
    (hascending : ∀ set ∈ positions, NodeSet.Ascending set) :
    shareNodes? c positions = some (shareNodes c positions) := by
  have hnames : ([] ++ c.vars).Nodup := by simpa using c.nodup_vars
  have hnone : Shares c [] positions positions := ⟨rfl, hascending, by simp⟩
  obtain ⟨positions', heq, hshares⟩ := shares_foldlM hlen hnames hnone
  have hthinned := shareNodes_thinned (c := c) hlen
  rw [shareNodes?, heq,
    NodeSet.eq_of_mem_iff (hshares.length_eq.trans hthinned.length_eq.symm) hshares.ascending
    (hthinned.ascending hascending)]
  intro k id
  rw [hshares.mem_iff]
  constructor
  · rintro ⟨hid, hall⟩
    refine mem_shareNodes hlen hid fun i n n' hn hn' hname => ?_
    exact hall n.name (Chain.mem_vars (List.mem_of_getElem? hn))
      (Chain.mem_positionsOf.2 ⟨n, hn, rfl⟩) i
      (Chain.mem_positionsOf.2 ⟨n', hn', hname⟩)
  · intro hid
    exact ⟨(hthinned.sublist_getD k).subset hid,
      fun name _ hk i hi => mem_of_mem_shareNodes hlen hid hk hi⟩

/-! ### Rounds -/

/-- The three demands once, place by place. -/
def round? (c : Chain) (last : Nat) (m : Matched) : Option Matched := do
  let pairs ← keepPairs? m.positions m.pairs
  let positions ← keepNodes? last m.positions pairs
  let positions ← shareNodes? c positions
  some { positions, pairs }

/-- Rounds until one changes nothing. There may be no more than `fuel` of them. -/
def settle? (c : Chain) (last : Nat) : (fuel : Nat) → Matched → Option Matched
  | 0, _ => none
  | fuel + 1, m => do
    let next ← round? c last m
    if next.size = m.size then some next else settle? c last fuel next

/-- Prunes a match, place by place up to the last. -/
def prune? (c : Chain) (m : Matched) : Option Matched := do
  let last ← before? m.positions.length
  settle? c last (m.size + 1) m

lemma round?_eq (h : Shaped c m) (hascending : ∀ set ∈ m.positions, NodeSet.Ascending set) :
    round? c c.steps.length m = some (round c m) := by
  have hlen : m.positions.length = m.pairs.length + 1 := by rw [h.positions, h.pairs, h.fits]
  have hpairs : (keepPairs m.positions m.pairs).length = c.steps.length :=
    (keepPairs_thinned m.positions m.pairs).length_eq.trans h.pairs
  have hnodes :
      keepNodes? (keepPairs m.positions m.pairs).length m.positions (keepPairs m.positions m.pairs)
      = some (keepNodes none m.positions (keepPairs m.positions m.pairs)) :=
    keepNodes?_eq (by rw [hpairs, h.positions, h.fits])
  have hthinned := keepNodes_thinned none m.positions (keepPairs m.positions m.pairs)
  rw [hpairs] at hnodes
  simp only [round?, keepPairs?_eq hlen, hnodes, Option.bind_eq_bind, Option.bind_some,
    shareNodes?_eq (hthinned.length_eq.trans h.positions) (hthinned.ascending hascending), round]

/-- With enough rounds allowed, none is too many and no place is missing. -/
lemma settle?_eq (h : Shaped c m) (hascending : ∀ set ∈ m.positions, NodeSet.Ascending set)
    {fuel : Nat}
    (hfuel : m.size < fuel) : settle? c c.steps.length fuel m = some (settle c fuel m) := by
  induction fuel generalizing m with
  | zero => omega
  | succ fuel ih =>
      have hpart := round_partOf h
      rw [settle?, round?_eq h hascending, settle]
      simp only [Option.bind_eq_bind, Option.bind_some]
      split
      · rfl
      · have hle := hpart.size_le
        exact ih (hpart.shaped h) (hpart.ascending hascending) (by omega)

/-- **Pruning misses no place** of a match that has the shape of its chain. -/
theorem prune?_eq (h : Shaped c m) (hascending : ∀ set ∈ m.positions, NodeSet.Ascending set) :
    prune? c m = some (prune c m) := by
  have hlast : before? m.positions.length = some c.steps.length := by
    rw [h.positions, h.fits, before?]
  simp only [prune?, hlast, Option.bind_eq_bind, Option.bind_some,
    settle?_eq h hascending (Nat.lt_succ_self m.size), prune]

end Matched
end CodeGraph
