import CodeGraph.Proofs.CheckedPruning
import CodeGraph.Proofs.Independence

/-!
Matching, with every place checked.

Here a chain is filled, its rows are walked and its variables are bound by places, as pruning does,
and a list is cut into chunks of a length that may be zero. Each of these fails if a place is
missing or the length is zero. Whatever chain query is run, well formed or not, on whatever
schedule, nothing fails, and what comes out is what is computed without places.

* `Schedule.run?`, `Schedule.firstMatches?`: work on chunks, whose length must not be zero.
* `fill?`, `walk?`, `Matched.filterRows?`: positions filled, rows walked and rows asked, place by
  place.
* `Matched.Gathers`: lists that hold, position by position, the nodes of some rows.
* `ChainQuery.run?`, `Matched.bindings?`, `ChainQuery.answer?`: a match, its bindings and the
  answer. `ChainQuery.run_misses_no_place`: none of them fails.
-/

namespace CodeGraph

/-! ### Chunks -/

/-- A list cut into chunks of a length, which must not be zero. -/
def chunks? {α : Type} (length : Nat) (xs : List α) : Option (List (List α)) :=
  if length = 0 then none else some (chunks length xs)

namespace Schedule

variable {α β : Type}

/-- Applies a function to each chunk of a list. -/
def run? (schedule : Schedule) (f : List α → Option (List β)) (xs : List α) : Option (List β) := do
  let parts ← chunks? schedule.chunkLength xs
  let results ← parts.mapM f
  some results.flatten

/-- What a function selects from a list, chunk by chunk, or up to a limit without chunks. -/
def firstMatches? (schedule : Schedule) (limit : Option Nat) (f : α → Option β) (xs : List α) :
    Option (List β) :=
  match limit with
  | some limit =>
    if schedule.isParallel xs.length then
      (schedule.run? (fun part => some (part.filterMap f)) xs).map (List.take limit)
    else some (takeMatches f limit xs)
  | none => schedule.run? (fun part => some (part.filterMap f)) xs

/-- The length of a chunk is never zero. -/
lemma chunks?_eq (schedule : Schedule) (xs : List α) :
    chunks? schedule.chunkLength xs = some (chunks schedule.chunkLength xs) :=
  if_neg (by rw [chunkLength]; omega)

lemma run?_eq (schedule : Schedule) (f : List α → List β) (xs : List α) :
    schedule.run? (fun part => some (f part)) xs = some (schedule.run f xs) := by
  simp only [run?, chunks?_eq, mapM_some, Option.bind_eq_bind, Option.bind_some, run_eq]

lemma firstMatches?_eq (schedule : Schedule) (limit : Option Nat) (f : α → Option β) (xs : List α) :
    schedule.firstMatches? limit f xs = some (schedule.firstMatches limit f xs) := by
  cases limit with
  | none => exact schedule.run?_eq _ xs
  | some limit =>
      rw [firstMatches?, firstMatches, run?_eq]
      split <;> rfl

end Schedule

/-! ### Filling -/

/-- The candidates of a first position, up to a limit. -/
def scan? (schedule : Schedule) (s : Store) (n : ChainNode) (filter : Option Expr)
    (limit : Option Nat) :
    Option (List NodeId) :=
  schedule.firstMatches? limit (fun id => if accepts s n filter id then some id else none)
    (scanned s n)

/-- The pairs that a step joins. -/
def expand? (schedule : Schedule) (s : Store) (previous : List NodeId) (step : ChainStep)
    (next : ChainNode)
    (filter : Option Expr) : Option (List (NodeId × NodeId)) :=
  schedule.run? (fun part => some (part.flatMap fun p =>
    ((step.ends s p).filter (accepts s next filter)).map fun q => (p, q))) previous

/-- Fills the positions along some steps, of which the first is at a place, from the position at its
place. -/
def fillFrom? (schedule : Schedule) (s : Store) (filter : Option NodeFilter)
    (nodes : List ChainNode) :
    (i : Nat) → List ChainStep → Matched → Option Matched
  | _, [], m => some m
  | i, step :: rest, m => do
    let next ← nodes[i + 1]?
    let previous ← m.positions[i]?
    let pairs ← expand? schedule s previous step next (next.filterOf filter)
    fillFrom? schedule s filter nodes (i + 1) rest
      ⟨m.positions ++ [NodeSet.ofList (pairs.map Prod.snd)], m.pairs ++ [pairs]⟩

/-- The candidates of all positions. -/
def fill? (schedule : Schedule) (s : Store) (c : Chain) (filter : Option NodeFilter)
    (limit : Option Nat) :
    Option Matched := do
  let first ← c.nodes[0]?
  let limit := if c.steps.isEmpty then limit else none
  let candidates ← scan? schedule s first (first.filterOf filter) limit
  fillFrom? schedule s filter c.nodes 0 c.steps ⟨[candidates], []⟩

lemma expand?_eq (schedule : Schedule) (s : Store) (previous : List NodeId) (step : ChainStep)
    (next : ChainNode) (filter : Option Expr) :
    expand? schedule s previous step next filter
      = some (expand schedule s previous step next filter) :=
  schedule.run?_eq _ previous

/-- When the position before the next step is the last that is filled, neither it nor the position
after it is missing. -/
lemma fillFrom?_eq (schedule : Schedule) (s : Store) (filter : Option NodeFilter)
    {nodes : List ChainNode} {i : Nat} {steps : List ChainStep}
    (hlen : nodes.length = i + 1 + steps.length) {before : List NodeSet}
    (hbefore : before.length = i) (candidates : NodeSet) (pairs : List (List (NodeId × NodeId))) :
    fillFrom? schedule s filter nodes i steps ⟨before ++ [candidates], pairs⟩
      = some ⟨before ++ (fillFrom schedule s filter candidates (steps.zip (nodes.drop (i + 1)))).1,
          pairs ++ (fillFrom schedule s filter candidates (steps.zip (nodes.drop (i + 1)))).2⟩ := by
  induction steps generalizing i before candidates pairs with
  | nil => simp [fillFrom?, fillFrom]
  | cons step rest ih =>
      rw [List.length_cons] at hlen
      have hnext : i + 1 < nodes.length := by omega
      have hprevious : (before ++ [candidates])[i]? = some candidates :=
        hbefore ▸ List.getElem?_concat_length
      have hconcat : (before ++ [candidates]).length = i + 1 := by simp [hbefore]
      have hrest := ih (by omega) hconcat
      rw [List.drop_eq_getElem_cons hnext, List.zip_cons_cons, fillFrom]
      simp only [fillFrom?, List.getElem?_eq_getElem hnext, hprevious, expand?_eq,
        Option.bind_eq_bind, Option.bind_some, hrest]
      simp only [List.append_assoc, List.singleton_append]

lemma fill?_eq (schedule : Schedule) (s : Store) {c : Chain} (filter : Option NodeFilter)
    (limit : Option Nat) (hfits : c.nodes.length = c.steps.length + 1) :
    fill? schedule s c filter limit = some (fill schedule s c filter limit) := by
  cases hnodes : c.nodes with
  | nil => simp [hnodes] at hfits
  | cons first rest =>
      have hlen : (first :: rest).length = 0 + 1 + c.steps.length := by
        rw [← hnodes, hfits]
        omega
      have hnone : ([] : List NodeSet).length = 0 := rfl
      have hfill := fillFrom?_eq schedule s filter hlen hnone
      have hscan : ∀ filter limit, scan? schedule s first filter limit
          = some (scan schedule s first filter limit) :=
        fun _ limit => schedule.firstMatches?_eq limit _ (scanned s first)
      simp only [fill?, hnodes, List.getElem?_cons_zero, hscan, Option.bind_eq_bind,
        Option.bind_some, fill]
      simpa using hfill _ []

/-! ### Walking -/

/-- Whether a node can stand after a row: if its variable has stood before, the row has the node
there. Where a position finds the first one of its variable is told by `firstOf`. -/
def extends? (firstOf : List Nat) (row : Row) (next : NodeId) : Option Bool := do
  let first ← firstOf[row.length]?
  if first < row.length then (row[first]?).map (· == next) else some true

/-- The rows that extend a row to the last position along the pairs of the steps. -/
def walk? (pairs : List (List (NodeId × NodeId))) (firstOf : List Nat) (row : Row) :
    Option (List Row) :=
  if row.length = firstOf.length then some [row]
  else if _hin : row.length < firstOf.length then do
    let last ← before? row.length
    let step ← pairs[last]?
    let id ← row[last]?
    let rows ← (successors step id).mapM fun next => do
      if ← extends? firstOf row next then walk? pairs firstOf (row ++ [next]) else some []
    some rows.flatten
  else none
termination_by firstOf.length - row.length
decreasing_by
  rw [List.length_append, List.length_singleton]
  omega

/-- Where each position of a chain finds the first position of its variable. -/
def firstPlaces? (c : Chain) : Option (List Nat) := c.nodes.mapM fun n => (c.positionsOf n.name)[0]?

/-- A list tells of each position of a chain the first position of its variable. -/
structure Chain.FirstPlaces (c : Chain) (firstOf : List Nat) : Prop where
  length_eq : firstOf.length = c.nodes.length
  head? : ∀ (k : Nat) (n : ChainNode), c.nodes[k]? = some n →
    (c.positionsOf n.name).head? = firstOf[k]?

lemma firstPlaces?_spec (c : Chain) :
    ∃ firstOf, firstPlaces? c = some firstOf ∧ c.FirstPlaces firstOf := by
  have hfirst : ∀ {k : Nat} {n : ChainNode}, c.nodes[k]? = some n →
      (c.positionsOf n.name).head? = some (((c.positionsOf n.name).head?).getD 0) := by
    intro k n hn
    obtain ⟨first, -, hfirst, -⟩ := Chain.exists_head_positionsOf hn
    rw [hfirst]
    rfl
  refine ⟨c.nodes.map fun n => ((c.positionsOf n.name).head?).getD 0, ?_, List.length_map _,
    fun k n hn => ?_⟩
  · refine mapM_eq_some (List.length_map _).symm fun k n first hn hget => ?_
    rw [List.getElem?_map, hn] at hget
    cases hget
    rw [← List.head?_eq_getElem?, hfirst hn]
  · rw [List.getElem?_map, hn, hfirst hn]
    rfl

lemma zip_concat {names : List String} {row : Row} {name : String}
    (h : names[row.length]? = some name)
    (next : NodeId) : names.zip (row ++ [next]) = names.zip row ++ [(name, next)] := by
  induction row generalizing names with
  | nil =>
      obtain _ | ⟨first, rest⟩ := names
      · cases h
      · cases h
        simp
  | cons id row ih =>
      obtain _ | ⟨first, rest⟩ := names
      · cases h
      · simpa using ih (by simpa using h)

section Walk

variable {c : Chain} {m : Matched} {firstOf : List Nat}

/-- Looking a variable up at its first position finds what the row binds it to. -/
lemma extends?_eq (hfirst : c.FirstPlaces firstOf) {row : Row} {n : ChainNode}
    (hn : c.nodes[row.length]? = some n) (next : NodeId) :
    extends? firstOf row next
      = some ((Bound.get? ((c.nodes.map ChainNode.name).zip row) n.name).all (· == next)) := by
  obtain ⟨first, -, hhead, -⟩ := Chain.exists_head_positionsOf hn
  have hlookup : Bound.get? ((c.nodes.map ChainNode.name).zip row) n.name = row[first]? := by
    have hrow := congrFun (rowLookup_eq c row) n.name
    rwa [rowLookup, Chain.lookup, hhead] at hrow
  rw [extends?, ← hfirst.head? _ n hn, hhead, hlookup]
  by_cases hlt : first < row.length
  · simp [hlt]
  · simp [hlt]

/-- Before the last position a walk goes on to every node that the next step leads to and that can
stand there. -/
lemma walk?_of_lt {pairs : List (List (NodeId × NodeId))} {step : List (NodeId × NodeId)}
    {row : Row} {id : NodeId} (hlt : (row ++ [id]).length < firstOf.length)
    (hstep : pairs[row.length]? = some step) :
    walk? pairs firstOf (row ++ [id]) = (do
      let rows ← (successors step id).mapM fun next => do
        if ← extends? firstOf (row ++ [id]) next then walk? pairs firstOf (row ++ [id] ++ [next])
          else some []
      some rows.flatten) := by
  rw [walk?, if_neg hlt.ne, dif_pos hlt, List.length_append, List.length_singleton]
  simp only [before?, hstep, List.getElem?_concat_length, Option.bind_eq_bind, Option.bind_some]

/-- A row that was walked up to some position is walked on as it is enumerated: neither the step
after the position nor the first position of a variable is missing. -/
lemma walk?_eq (hm : Matched.Shaped c m) (hfirst : c.FirstPlaces firstOf) {row : Row} {id : NodeId}
    (hrow : row.length < c.nodes.length) :
    walk? m.pairs firstOf (row ++ [id])
      = some ((rowsFrom ((c.nodes.map ChainNode.name).zip (row ++ [id])) id
          ((m.pairs.drop row.length).zip ((c.nodes.map ChainNode.name).drop (row.length + 1)))).map
        (row ++ [id] ++ ·)) := by
  set names := c.nodes.map ChainNode.name with hnames
  have hfits := hm.fits
  have hpairs := hm.pairs
  have hlen := hfirst.length_eq
  have hlength : (row ++ [id]).length = row.length + 1 := by simp
  induction hleft : c.nodes.length - (row.length + 1) generalizing row id with
  | zero =>
      have hlast : (row ++ [id]).length = firstOf.length := by omega
      rw [walk?, if_pos hlast, List.drop_eq_nil_of_le (by omega), List.zip_nil_left]
      simp [rowsFrom]
  | succ left ih =>
      have hlt : row.length + 1 < c.nodes.length := by omega
      have hpair : row.length < m.pairs.length := by omega
      have hnode : c.nodes[(row ++ [id]).length]? = some c.nodes[row.length + 1] := by
        rw [hlength]
        exact List.getElem?_eq_getElem hlt
      have hname : names[(row ++ [id]).length]? = some c.nodes[row.length + 1].name := by
        rw [hnames, List.getElem?_map, hnode]
        rfl
      have hdrop : names.drop (row.length + 1)
          = c.nodes[row.length + 1].name :: names.drop (row.length + 1 + 1) := by
        rw [hnames, List.drop_eq_getElem_cons (by simpa using hlt), List.getElem_map]
      -- every way to go on is taken by the enumeration too
      have hnext : ∀ next, (do
            if ← extends? firstOf (row ++ [id]) next
              then walk? m.pairs firstOf (row ++ [id] ++ [next]) else some [])
          = some
            (if (Bound.get? (names.zip (row ++ [id])) c.nodes[row.length + 1].name).all (· == next)
            then (rowsFrom (names.zip (row ++ [id]) ++ [(c.nodes[row.length + 1].name, next)]) next
              ((m.pairs.drop (row.length + 1)).zip (names.drop (row.length + 1 + 1)))).map
                (row ++ [id] ++ [next] ++ ·)
            else []) := by
        intro next
        have hrest := @ih (row ++ [id]) next (by omega) (by simp) (by omega)
        rw [zip_concat hname, hlength] at hrest
        rw [extends?_eq hfirst hnode, Option.bind_eq_bind, Option.bind_some, hrest]
        split <;> rfl
      rw [walk?_of_lt (by omega) (List.getElem?_eq_getElem hpair), funext hnext, mapM_some,
        List.drop_eq_getElem_cons hpair, hdrop, List.zip_cons_cons, rowsFrom, List.map_flatMap,
          Option.bind_eq_bind,
        Option.bind_some, ← List.flatMap_def]
      refine congrArg some (List.flatMap_congr fun next _ => ?_)
      split <;> simp

/-- A walk from a node alone finds the rows that start at it. -/
lemma walk?_start (hm : Matched.Shaped c m) (hfirst : c.FirstPlaces firstOf) (start : NodeId) :
    walk? m.pairs firstOf [start] = some (rowsThrough c m start) := by
  have hfits := hm.fits
  have hpos : ([] : Row).length < c.nodes.length := by
    rw [List.length_nil]
    omega
  have hwalk := @walk?_eq c m firstOf hm hfirst [] start hpos
  cases hnodes : c.nodes with
  | nil => simp [hnodes] at hfits
  | cons first rest =>
      rw [List.nil_append, hnodes] at hwalk
      rw [hwalk]
      simp [rowsThrough, hnodes]

end Walk

/-! ### Asking rows -/

/-- Extends each of some lists by the one at its place among others. -/
def extendAll? (sets lists : List (List NodeId)) : Option (List (List NodeId)) :=
  lists.zipIdx.foldlM (fun sets p => updateAt? sets p.2 (· ++ p.1)) sets

/-- Whether a predicate holds of a row, each variable read from the row at its first position. All
positions are read before it is asked, and the first of a variable counts. -/
def passes? (s : Store) (c : Chain) (predicate : Option Expr) (row : Row) : Option Bool := do
  let bound ← (c.nodes.map ChainNode.name).zipIdx.mapM fun slot =>
    (row[slot.2]?).map (Prod.mk slot.1)
  some (predicate.all fun e => e.holds s (Bound.get? bound))

/-- Adds a row to the nodes of each position, if it passes. -/
def visit? (s : Store) (c : Chain) (predicate : Option Expr) (sets : List (List NodeId))
    (row : Row) :
    Option (List (List NodeId)) := do
  if ← passes? s c predicate row then extendAll? sets (row.map fun id => [id]) else some sets

/-- The nodes at each position of the rows that start at some nodes and pass. -/
def survivors? (s : Store) (c : Chain) (predicate : Option Expr)
    (pairs : List (List (NodeId × NodeId))) (firstOf : List Nat) (starts : List NodeId) :
    Option (List (List NodeId)) := do
  let rows ← starts.mapM fun start => walk? pairs firstOf [start]
  rows.flatten.foldlM (visit? s c predicate) (List.replicate c.nodes.length [])

/-- Keeps at each position the nodes of the rows that pass a predicate. -/
def Matched.filterRows? (schedule : Schedule) (s : Store) (c : Chain) (predicate : Option Expr)
    (m : Matched) :
    Option Matched := do
  let firstOf ← firstPlaces? c
  let starts ← m.positions[0]?
  let survivors ← schedule.run?
    (fun part => (survivors? s c predicate m.pairs firstOf part).map fun sets => [sets]) starts
  let sets ← survivors.foldlM extendAll? (List.replicate c.nodes.length [])
  some { m with positions := sets.map NodeSet.ofList }

lemma extendAll?_eq {sets lists : List (List NodeId)} (hlen : lists.length = sets.length) :
    extendAll? sets lists = some (List.zipWith (· ++ ·) sets lists) := by
  -- the lists that come before are extended already
  have key : ∀ (lists sets before : List (List NodeId)), lists.length = sets.length →
      (lists.zipIdx before.length).foldlM (fun sets p => updateAt? sets p.2 (· ++ p.1))
        (before ++ sets)
        = some (before ++ List.zipWith (· ++ ·) sets lists) := by
    intro lists
    induction lists with
    | nil =>
        intro sets before hlen
        obtain rfl : sets = [] := List.eq_nil_of_length_eq_zero hlen.symm
        rfl
    | cons list rest ih =>
        intro sets before hlen
        obtain _ | ⟨set, sets⟩ := sets
        · cases hlen
        · have hrest := ih sets (before ++ [set ++ list]) (by simpa using hlen)
          simpa [List.zipIdx_cons, List.foldlM_cons, updateAt?] using hrest
  exact key lists sets [] hlen

namespace Matched

/-- Lists of as many positions as rows have hold the nodes that the rows have there. -/
structure Gathers (width : Nat) (rows : List Row) (sets : List (List NodeId)) : Prop where
  length_eq : sets.length = width
  mem_iff : ∀ k id, id ∈ sets.getD k [] ↔ ∃ r ∈ rows, r[k]? = some id

variable {c : Chain} {m : Matched} {s : Store} {predicate : Option Expr} {width : Nat}
  {rows rows' : List Row}
  {sets lists : List (List NodeId)}

lemma gathers_nil (width : Nat) : Gathers width [] (List.replicate width []) := by
  refine ⟨List.length_replicate, fun k id => ?_⟩
  rw [mem_getD]
  simp [List.getElem?_replicate]

lemma gathers_singleton {r : Row} (h : r.length = width) :
    Gathers width [r] (r.map fun id => [id]) := by
  refine ⟨by simpa using h, fun k id => ?_⟩
  rw [mem_getD]
  simp [List.getElem?_map, eq_comm]

lemma Gathers.extend (h : Gathers width rows sets) (h' : Gathers width rows' lists) :
    ∃ sets', extendAll? sets lists = some sets' ∧ Gathers width (rows ++ rows') sets' := by
  have hlen : lists.length = sets.length := h'.length_eq.trans h.length_eq.symm
  refine ⟨_, extendAll?_eq hlen, by rw [List.length_zipWith, hlen, Nat.min_self, h.length_eq],
    fun k id => ?_⟩
  have hboth : id ∈ (List.zipWith (· ++ ·) sets lists).getD k []
      ↔ id ∈ sets.getD k [] ∨ id ∈ lists.getD k [] := by
    simp only [List.getD_eq_getElem?_getD, List.getElem?_zipWith]
    by_cases hk : k < sets.length
    · simp [List.getElem?_eq_getElem hk, List.getElem?_eq_getElem (hlen ▸ hk)]
    · have hnone : lists[k]? = none := List.getElem?_eq_none (by omega)
      simp [List.getElem?_eq_none (Nat.le_of_not_lt hk), hnone]
  rw [hboth, h.mem_iff, h'.mem_iff]
  simp [or_and_right, exists_or]

/-- A row has a node at every place that is read. -/
lemma passes?_eq {r : Row} (h : r.length = c.nodes.length) :
    passes? s c predicate r = some (predicate.all fun e => e.holds s (rowLookup c.nodes r)) := by
  have hbound :
      (c.nodes.map ChainNode.name).zipIdx.mapM (fun slot => (r[slot.2]?).map (Prod.mk slot.1))
      = some ((c.nodes.map ChainNode.name).zip r) := by
    refine mapM_eq_some (by simp [h]) fun i slot b hslot hb => ?_
    rw [List.getElem?_zipIdx, Nat.zero_add] at hslot
    obtain ⟨name, hname, rfl⟩ := Option.map_eq_some_iff.1 hslot
    obtain ⟨hname', hid⟩ := List.getElem?_zip_eq_some.1 hb
    cases hname.symm.trans hname'
    rw [hid]
    rfl
  rw [passes?, hbound]
  rfl

/-- Rows that pass are added, the others are passed over. -/
lemma Gathers.visit (h : Gathers c.nodes.length rows sets) {more : List Row}
    (hmore : ∀ r ∈ more, r.length = c.nodes.length) :
    ∃ sets', more.foldlM (visit? s c predicate) sets = some sets'
      ∧ Gathers c.nodes.length
        (rows ++ more.filter fun r => predicate.all fun e =>
          e.holds s (rowLookup c.nodes r)) sets' := by
  induction more generalizing rows sets with
  | nil => exact ⟨sets, rfl, by simpa using h⟩
  | cons r more ih =>
      rw [List.forall_mem_cons] at hmore
      by_cases hpasses : predicate.all fun e => e.holds s (rowLookup c.nodes r)
      · obtain ⟨next, hnext, hgathers⟩ := h.extend (gathers_singleton hmore.1)
        obtain ⟨sets', heq, hall⟩ := ih hgathers hmore.2
        refine ⟨sets', ?_, by simpa [List.filter_cons, hpasses] using hall⟩
        simp [List.foldlM_cons, visit?, passes?_eq hmore.1, hpasses, hnext, heq]
      · obtain ⟨sets', heq, hall⟩ := ih h hmore.2
        refine ⟨sets', ?_, by simpa [List.filter_cons, hpasses] using hall⟩
        simp [List.foldlM_cons, visit?, passes?_eq hmore.1, hpasses, heq]

lemma length_of_mem_rowsThrough (hm : Shaped c m) {starts : List NodeId} {r : Row}
    (hr : r ∈ starts.flatMap (rowsThrough c m)) : r.length = c.nodes.length := by
  obtain ⟨start, -, hr⟩ := List.mem_flatMap.1 hr
  exact ((mem_rowsThrough hm).1 hr).1

lemma survivors?_spec (hm : Shaped c m) {firstOf : List Nat} (hfirst : c.FirstPlaces firstOf)
    (starts : List NodeId) :
    ∃ sets, survivors? s c predicate m.pairs firstOf starts = some sets
      ∧ Gathers c.nodes.length (passingFrom s c predicate m starts) sets := by
  have hwalks : starts.mapM (fun start => walk? m.pairs firstOf [start])
      = some (starts.map (rowsThrough c m)) := by
    rw [funext (walk?_start hm hfirst), mapM_some]
  have hlength : ∀ r ∈ starts.flatMap (rowsThrough c m), r.length = c.nodes.length := fun r hr =>
    length_of_mem_rowsThrough hm hr
  obtain ⟨sets, heq, hgathers⟩ : ∃ sets,
      (starts.flatMap (rowsThrough c m)).foldlM (visit? s c predicate)
      (List.replicate c.nodes.length []) = some sets
      ∧ Gathers c.nodes.length (passingFrom s c predicate m starts) sets :=
        (gathers_nil c.nodes.length).visit hlength
  refine ⟨sets, ?_, hgathers⟩
  rw [survivors?, hwalks, Option.bind_eq_bind, Option.bind_some, ← List.flatMap_def, heq]

/-- What is gathered from each part of a list is put together. -/
lemma Gathers.extend_parts {part? : List NodeId → Option (List (List NodeId))}
    {rowsOf : List NodeId → List Row}
    (hpart : ∀ part, ∃ sets, part? part = some sets ∧ Gathers width (rowsOf part) sets)
    (parts : List (List NodeId)) (h : Gathers width rows sets) :
    ∃ gathered sets', parts.mapM (fun part => (part? part).map fun sets => [sets]) = some gathered
      ∧ gathered.flatten.foldlM extendAll? sets = some sets'
      ∧ Gathers width (rows ++ parts.flatMap rowsOf) sets' := by
  induction parts generalizing rows sets with
  | nil => exact ⟨[], sets, rfl, rfl, by simpa using h⟩
  | cons part rest ih =>
      obtain ⟨lists, hlists, hgathers⟩ := hpart part
      obtain ⟨next, hnext, hextended⟩ := h.extend hgathers
      obtain ⟨gathered, sets', hgathered, heq, hall⟩ := ih hextended
      refine ⟨[lists] :: gathered, sets', ?_, ?_, by simpa using hall⟩
      · simp [List.mapM_cons, hlists, hgathered]
      · simpa [List.foldlM_cons, hnext] using heq

/-- Lists that gather the nodes of some rows hold, once sorted, the columns of the rows. -/
lemma Gathers.map_ofList_eq (h : Gathers width rows sets) (hrows : ∀ r ∈ rows, r.length = width) :
    sets.map NodeSet.ofList = columns width rows := by
  refine NodeSet.eq_of_mem_iff (by rw [List.length_map, h.length_eq, length_columns width hrows]) ?_
    (ascending_columns width rows) fun k id => ?_
  · intro set hset
    obtain ⟨list, -, rfl⟩ := List.mem_map.1 hset
    exact NodeSet.ascending_ofList list
  · rw [mem_columns hrows, ← h.mem_iff, List.getD_eq_getElem?_getD, List.getElem?_map,
      List.getD_eq_getElem?_getD]
    cases sets[k]? <;> simp

/-- **Asking rows misses no place** of a match that has the shape of its chain. -/
lemma filterRows?_eq (schedule : Schedule) (hm : Shaped c m) :
    m.filterRows? schedule s c predicate = some (m.filterRows schedule s c predicate) := by
  obtain ⟨firstOf, hfirstOf, hfirst⟩ := firstPlaces?_spec c
  have hstarts : m.positions[0]? = some (m.positions.headD []) := by
    have hpositions := hm.positions
    have hfits := hm.fits
    cases hp : m.positions with
    | nil => simp [hp, hfits] at hpositions
    | cons first rest => rfl
  have hpart : ∀ part, ∃ sets, survivors? s c predicate m.pairs firstOf part = some sets
      ∧ Gathers c.nodes.length (passingFrom s c predicate m part) sets := survivors?_spec hm hfirst
  obtain ⟨gathered, sets, hgathered, heq, hsets⟩ := (gathers_nil c.nodes.length).extend_parts hpart
    (chunks schedule.chunkLength (m.positions.headD []))
  rw [List.nil_append, List.flatMap_def, ← Schedule.run_eq, run_passingFrom] at hsets
  have hlength : ∀ r ∈ passingRows s c predicate m, r.length = c.nodes.length := fun r hr =>
    length_of_mem_rowsThrough hm (List.mem_of_mem_filter hr)
  simp only [filterRows?, hfirstOf, hstarts, Schedule.run?, Schedule.chunks?_eq, hgathered, heq,
    Option.bind_eq_bind, Option.bind_some, hsets.map_ofList_eq hlength, filterRows_eq]

end Matched

/-! ### Running -/

/-- Prunes what was filled, if there is a step. -/
def Matched.pruneSteps? (c : Chain) (m : Matched) : Option Matched :=
  if c.steps.isEmpty then some m else m.prune? c

/-- The match of a chain query, every place checked. -/
def ChainQuery.run? (schedule : Schedule) (s : Store) (q : ChainQuery) : Option Matched :=
  let c := q.chain
  if !c.isWellFormed then some (.empty c)
  else
    match Question.ofPredicate s q.predicate with
    | .never => some (.empty c)
    | question => do
      let filled ← fill? schedule s c question.nodeFilter? q.limit
      let pruned ← filled.pruneSteps? c
      if question.rowPredicate?.isSome || c.hasReusedVariables then do
        let asked ← pruned.filterRows? schedule s c question.rowPredicate?
        asked.prune? c
      else some pruned

/-- The node sets of the written variables of a chain, each read at its first position. -/
def Matched.bindings? (m : Matched) (c : Chain) : Option Bindings :=
  c.nodes.zipIdx.foldlM (fun bound p =>
    if p.1.anonymous || bound.any (fun b => b.1 == p.1.name) then some bound
    else (m.positions[p.2]?).map fun set => bound ++ [(p.1.name, set)]) []

/-- The answer to a chain query, every place of its match checked. Where its variable stands
nowhere, or beyond the positions, nothing is read. -/
def ChainQuery.answer? (schedule : Schedule) (s : Store) (q : ChainQuery) : Option Answer := do
  let m ← q.run? schedule s
  some { column := q.column, nodes := (q.returnedIds m).filterMap s.node? }

/-- Every position that is bound has a set. -/
lemma Matched.bindings?_eq {m : Matched} {c : Chain} (h : m.positions.length = c.nodes.length) :
    m.bindings? c = some (m.bindings c) := by
  have key : ∀ (nodes : List ChainNode) (i : Nat) (bound : Bindings),
      i + nodes.length = m.positions.length →
      (nodes.zipIdx i).foldlM (fun bound p =>
        if p.1.anonymous || bound.any (fun b => b.1 == p.1.name) then some bound
        else (m.positions[p.2]?).map fun set => bound ++ [(p.1.name, set)]) bound
        = some ((nodes.zip (m.positions.drop i)).foldl Bindings.note bound) := by
    intro nodes
    induction nodes with
    | nil => exact fun _ _ _ => rfl
    | cons n rest ih =>
        intro i bound hlen
        rw [List.length_cons] at hlen
        have hi : i < m.positions.length := by omega
        have hstep : (if n.anonymous || bound.any (fun b => b.1 == n.name) then some bound
            else (m.positions[i]?).map fun set => bound ++ [(n.name, set)])
            = some (Bindings.note bound (n, m.positions[i])) := by
          rw [List.getElem?_eq_getElem hi, Bindings.note]
          split <;> rfl
        rw [List.zipIdx_cons, List.foldlM_cons, hstep, Option.bind_eq_bind, Option.bind_some,
          ih (i + 1) _ (by omega),
          List.drop_eq_getElem_cons hi, List.zip_cons_cons, List.foldl_cons]
  rw [bindings?, key c.nodes 0 [] (by omega), List.drop_zero, bindings_eq]

namespace ChainQuery

variable {s : Store} {q : ChainQuery}

/-- A chain query that is asked at all is filled, pruned, and asked row by row if it has to be. -/
lemma run?_of_asked (schedule : Schedule) (hwell : q.chain.isWellFormed)
    (hasked : q.question s ≠ .never) :
    q.run? schedule s = (do
      let filled ← fill? schedule s q.chain (q.question s).nodeFilter? q.limit
      let pruned ← filled.pruneSteps? q.chain
      if (q.question s).rowPredicate?.isSome || q.chain.hasReusedVariables then do
        let asked ← pruned.filterRows? schedule s q.chain (q.question s).rowPredicate?
        asked.prune? q.chain
      else some pruned) := by
  rw [run?, hwell]
  rw [question] at hasked ⊢
  cases hquestion : Question.ofPredicate s q.predicate with
  | never => exact absurd hquestion hasked
  | always => rfl
  | ofNode filter => rfl
  | ofRow predicate => rfl

/-- **Running misses no place**, whatever chain query is run. -/
lemma run?_eq (hs : s.Indexed) (schedule : Schedule) (q : ChainQuery) :
    q.run? schedule s = some (q.run schedule s) := by
  by_cases hwell : q.chain.isWellFormed
  · have hfits : q.chain.nodes.length = q.chain.steps.length + 1 := beq_iff_eq.1 hwell
    by_cases hasked : q.question s = .never
    · rw [run_of_never schedule hfits hasked, run?]
      rw [question] at hasked
      simp [hwell, hasked]
    · obtain ⟨hpart, hconsistent, -⟩ := prunedMatch_spec schedule s hfits
      have hfilled :
          Matched.Shaped q.chain (fill schedule s q.chain (q.question s).nodeFilter? q.limit) :=
        shaped_fill schedule hfits
      have hpruned :
          (fill schedule s q.chain (q.question s).nodeFilter? q.limit).pruneSteps? q.chain
          = some (q.prunedMatch schedule s) := by
        rw [Matched.pruneSteps?, prunedMatch,
          Matched.prune?_eq hfilled (ascending_fill hs schedule hfits)]
        split <;> rfl
      have hshaped := hpart.shaped hfilled
      have hrows : Matched.Shaped q.chain
          ((q.prunedMatch schedule s).filterRows schedule s q.chain (q.question s).rowPredicate?) :=
        Matched.shaped_filterRows schedule hconsistent hshaped
      rw [run?_of_asked schedule hwell hasked, run_eq schedule hwell hasked,
        fill?_eq schedule s _ _ hfits]
      simp only [Option.bind_eq_bind, Option.bind_some, hpruned,
        Matched.filterRows?_eq schedule hshaped,
        Matched.prune?_eq hrows (Matched.ascending_filterRows schedule)]
      split <;> rfl
  · rw [run?, run]
    simp [hwell]

/-- A chain whose steps do not fit its positions has an empty match. -/
lemma run_of_malformed (schedule : Schedule) (s : Store)
    (h : q.chain.nodes.length ≠ q.chain.steps.length + 1) :
    q.run schedule s = .empty q.chain := by
  have hmalformed : q.chain.isWellFormed = false := beq_eq_false_iff_ne.2 h
  rw [run, hmalformed]
  rfl

/-- **No place is missing**, in any store that changes make of the empty one, on any schedule, even
of chunks of length zero, and whatever chain query is run: with any number of positions and steps,
variables that repeat and variables that stand nowhere. A match and its bindings and the answer are
computed without a failure, and are what is computed without places; whether a match is empty is
asked of its sets, by no place at all. There is a set for each position and a list of pairs for each
step, and all of them are empty if the steps do not fit the positions. -/
theorem run_misses_no_place (hs : s.Reachable) (schedule : Schedule) (q : ChainQuery) :
    q.run? schedule s = some (q.run schedule s)
      ∧ (q.run schedule s).bindings? q.chain = some ((q.run schedule s).bindings q.chain)
      ∧ q.answer? schedule s = some (q.answer schedule s)
      ∧ (q.run schedule s).positions.length = q.chain.nodes.length
      ∧ (q.run schedule s).pairs.length = q.chain.steps.length
      ∧ (q.chain.nodes.length ≠ q.chain.steps.length + 1 →
        (∀ set ∈ (q.run schedule s).positions, set = [])
          ∧ ∀ pairs ∈ (q.run schedule s).pairs, pairs = []) := by
  have hrun := run?_eq hs.indexed schedule q
  have hlengths : (q.run schedule s).positions.length = q.chain.nodes.length
      ∧ (q.run schedule s).pairs.length = q.chain.steps.length := by
    by_cases hfits : q.chain.nodes.length = q.chain.steps.length + 1
    · exact ⟨(q.shaped_run schedule hfits).positions, (q.shaped_run schedule hfits).pairs⟩
    · rw [run_of_malformed schedule s hfits]
      exact ⟨List.length_replicate, List.length_replicate⟩
  refine ⟨hrun, Matched.bindings?_eq hlengths.1, ?_, hlengths.1, hlengths.2, fun hmalformed => ?_⟩
  · rw [answer?, hrun]
    rfl
  · rw [run_of_malformed schedule s hmalformed]
    exact ⟨fun set hset => List.eq_of_mem_replicate hset,
      fun pairs hpairs => List.eq_of_mem_replicate hpairs⟩

/-- A function that calls itself, on chunks of length zero: a chain that repeats its variable and
asks for another one that stands nowhere, and a chain with a step too many. -/
theorem run_misses_no_place_of_chunks :
    let s := Store.run {} [.add { kind := .functionDeclaration },
      .addEdge ⟨0⟩ ⟨"calls"⟩ ⟨0⟩ .outgoing]
    let schedule : Schedule := { strategy := .parallel, chunkSize := 0 }
    let step : ChainStep := { direction := .outgoing }
    let q : ChainQuery :=
      { chain := { nodes := [{ name := "f" }, { name := "f" }], steps := [step] },
        returned := "g", column := "g" }
    let q' : ChainQuery := { q with chain := { nodes := [{ name := "f" }], steps := [step] } }
    q.run? schedule s = some ⟨[[⟨0⟩], [⟨0⟩]], [[(⟨0⟩, ⟨0⟩)]]⟩ ∧ (q.answer? schedule s).isSome
      ∧ q'.chain.nodes.length ≠ q'.chain.steps.length + 1
      ∧ ∀ set ∈ (q'.run schedule s).positions, set = [] := by
  intro s schedule step q q'
  have hs : s.Reachable := ⟨_, rfl⟩
  obtain ⟨hrun, -, hanswer, -⟩ := run_misses_no_place hs schedule q
  have hmalformed : q'.chain.nodes.length ≠ q'.chain.steps.length + 1 := by decide
  refine ⟨hrun.trans (congrArg some (by decide +kernel)), by rw [hanswer]; rfl, hmalformed, ?_⟩
  exact ((run_misses_no_place hs schedule q').2.2.2.2.2 hmalformed).1

end ChainQuery
end CodeGraph
