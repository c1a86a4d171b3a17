import CodeGraph.Proofs.Pruning

/-!
The rows of a match are the rows that thread it.

* `mem_rowsFrom`, `mem_rowsThrough`: the enumeration finds a row exactly if each step joins its
  nodes and a variable keeps the node that it was bound to first.
* `mem_columns`: the set at a position holds the nodes that the rows have there.
* `Chain.lookup`, `rowLookup_eq`: a row binds a variable to the node at its first position.
* `Matched.mem_filterRows`: what is left when a predicate is asked of rows.
-/

namespace CodeGraph

/-! ### Bindings in which a variable has one node -/

namespace Bound

variable {bound : Bound} {name : String} {id : NodeId}

lemma mem_of_get?_eq_some (h : bound.get? name = some id) : (name, id) ∈ bound := by
  induction bound with
  | nil => cases h
  | cons b rest ih =>
      obtain ⟨n, x⟩ := b
      rw [get?] at h
      split at h
      · rename_i hn
        cases h
        rw [hn]
        exact List.mem_cons_self
      · exact List.mem_cons_of_mem _ (ih h)

lemma not_mem_of_get?_eq_none (h : bound.get? name = none) : (name, id) ∉ bound := by
  induction bound with
  | nil => simp
  | cons b rest ih =>
      obtain ⟨n, x⟩ := b
      rw [get?] at h
      split at h
      · cases h
      · rename_i hn
        intro hmem
        rcases List.mem_cons.1 hmem with heq | hrest
        · cases heq
          exact hn rfl
        · exact ih h hrest

/-- A variable is bound to one node only. -/
def Functional (bound : Bound) : Prop :=
  ∀ (n : String) (a b : NodeId), (n, a) ∈ bound → (n, b) ∈ bound → a = b

/-- A binding can be added if the variable has no other node yet. -/
lemma functional_concat :
    Functional (bound ++ [(name, id)]) ↔ bound.Functional ∧ (bound.get? name).all (· == id) := by
  constructor
  · intro h
    refine ⟨fun n a b ha hb =>
      h n a b (List.mem_append_left _ ha) (List.mem_append_left _ hb), ?_⟩
    cases hget : bound.get? name with
    | none => rfl
    | some a =>
        have heq : a = id :=
          h name a id (List.mem_append_left _ (mem_of_get?_eq_some hget)) (by simp)
        simp [heq]
  · rintro ⟨h, hget⟩
    have hnew : ∀ a, (name, a) ∈ bound → a = id := by
      intro a ha
      cases hb : bound.get? name with
      | none => exact absurd ha (not_mem_of_get?_eq_none hb)
      | some b =>
          have hbid : b = id := by simpa [hb] using hget
          exact (h name a b ha (mem_of_get?_eq_some hb)).trans hbid
    intro n a b ha hb
    rcases List.mem_append.1 ha with ha | ha <;> rcases List.mem_append.1 hb with hb | hb
    · exact h n a b ha hb
    · cases List.mem_singleton.1 hb
      exact hnew a ha
    · cases List.mem_singleton.1 ha
      exact (hnew b hb).symm
    · cases List.mem_singleton.1 ha
      cases List.mem_singleton.1 hb
      rfl

lemma Functional.left {other : Bound} (h : Functional (bound ++ other)) : bound.Functional :=
  fun n a b ha hb => h n a b (List.mem_append_left _ ha) (List.mem_append_left _ hb)

end Bound

/-! ### Enumeration -/

lemma mem_successors {pairs : List (NodeId × NodeId)} {p q : NodeId} :
    q ∈ successors pairs p ↔ (p, q) ∈ pairs := by
  rw [successors, List.mem_filterMap]
  constructor
  · rintro ⟨pair, hpair, hq⟩
    split at hq
    · rename_i hp
      cases hq
      rwa [← hp]
    · cases hq
  · intro hpq
    exact ⟨(p, q), hpq, if_pos rfl⟩

/-- **The rest of a row** is found exactly if each step joins its nodes and no variable is bound to
two nodes. -/
lemma mem_rowsFrom {pairs : List (List (NodeId × NodeId))} {names : List String}
    (hlen : pairs.length = names.length) {bound : Bound} (hbound : bound.Functional) {p : NodeId}
    {r : Row} :
    r ∈ rowsFrom bound p (pairs.zip names)
      ↔ r.length = names.length
        ∧ (∀ i a b, (p :: r)[i]? = some a → r[i]? = some b → (a, b) ∈ pairs.getD i [])
        ∧ Bound.Functional (bound ++ names.zip r) := by
  induction pairs generalizing names bound p r with
  | nil =>
      obtain rfl : names = [] := List.eq_nil_of_length_eq_zero hlen.symm
      cases r with
      | nil => simpa [rowsFrom] using hbound
      | cons q r => simp [rowsFrom]
  | cons first rest ih =>
      obtain _ | ⟨name, names⟩ := names
      · cases hlen
      · have hrest : rest.length = names.length := by simpa using hlen
        have happend : ∀ (q : NodeId) (r : Row), bound ++ (name :: names).zip (q :: r)
            = (bound ++ [(name, q)]) ++ names.zip r := by simp
        rw [List.zip_cons_cons, rowsFrom, List.mem_flatMap]
        constructor
        · rintro ⟨q, hq, hr⟩
          split at hr
          · rename_i hget
            obtain ⟨tail, htail, rfl⟩ := List.mem_map.1 hr
            obtain ⟨hlength, hjoined, hfun⟩ :=
              (ih hrest (Bound.functional_concat.2 ⟨hbound, hget⟩)).1 htail
            refine ⟨by simp [hlength], fun i a b ha hb => ?_, by rwa [happend]⟩
            cases i with
            | zero =>
                cases ha
                cases hb
                exact mem_successors.1 hq
            | succ i => exact hjoined i a b ha hb
          · simp at hr
        · rintro ⟨hlength, hjoined, hfun⟩
          obtain _ | ⟨q, r⟩ := r
          · simp at hlength
          · rw [happend] at hfun
            have hget := (Bound.functional_concat.1 hfun.left).2
            refine ⟨q, mem_successors.2 (hjoined 0 p q rfl rfl), ?_⟩
            rw [if_pos hget]
            refine List.mem_map.2 ⟨r,
              (ih hrest hfun.left).2 ⟨by simpa using hlength, ?_, hfun⟩, rfl⟩
            exact fun i a b ha hb => hjoined (i + 1) a b ha hb

/-- A row agrees with itself exactly if it binds no variable to two nodes. -/
lemma agrees_iff {c : Chain} {r : Row} (hlen : r.length = c.nodes.length) :
    Matched.Agrees c r ↔ Bound.Functional ((c.nodes.map ChainNode.name).zip r) := by
  constructor
  · intro h n a b ha hb
    obtain ⟨i, hi⟩ := List.mem_iff_getElem?.1 ha
    obtain ⟨j, hj⟩ := List.mem_iff_getElem?.1 hb
    obtain ⟨hni, hri⟩ := List.getElem?_zip_eq_some.1 hi
    obtain ⟨hnj, hrj⟩ := List.getElem?_zip_eq_some.1 hj
    rw [List.getElem?_map] at hni hnj
    obtain ⟨x, hx, hxn⟩ := Option.map_eq_some_iff.1 hni
    obtain ⟨y, hy, hyn⟩ := Option.map_eq_some_iff.1 hnj
    have heq := h i j x y hx hy (hxn.trans hyn.symm)
    exact Option.some.inj (hri.symm.trans (heq.trans hrj))
  · intro h i j n n' hn hn' hname
    have hentry : ∀ {k : Nat} {x : ChainNode}, c.nodes[k]? = some x →
        ∃ id, r[k]? = some id ∧ (x.name, id) ∈ (c.nodes.map ChainNode.name).zip r := by
      intro k x hx
      have hk : k < r.length := hlen ▸ (List.getElem?_eq_some_iff.1 hx).1
      refine ⟨r[k], List.getElem?_eq_getElem hk, List.mem_iff_getElem?.2 ⟨k, ?_⟩⟩
      exact List.getElem?_zip_eq_some.2 ⟨by rw [List.getElem?_map, hx]; rfl,
        List.getElem?_eq_getElem hk⟩
    obtain ⟨a, ha, hamem⟩ := hentry hn
    obtain ⟨b, hb, hbmem⟩ := hentry hn'
    rw [ha, hb, h n.name a b hamem (hname ▸ hbmem)]

/-! ### What a row binds variables to -/

namespace Chain

/-- The node at the first position of a variable. -/
def lookup (c : Chain) (r : Row) : Lookup :=
  fun name => (c.positionsOf name).head?.bind (fun k => r[k]?)

lemma mem_positionsFrom {name : String} {nodes : List ChainNode} {offset k : Nat} :
    k ∈ positionsFrom name offset nodes
      ↔ ∃ i n, k = offset + i ∧ nodes[i]? = some n ∧ n.name = name := by
  induction nodes generalizing offset with
  | nil => simp [positionsFrom]
  | cons first rest ih =>
      have hrest : k ∈ positionsFrom name (offset + 1) rest
          ↔ ∃ i n, k = offset + (i + 1) ∧ rest[i]? = some n ∧ n.name = name := by
        rw [ih]
        simp only [Nat.add_assoc, Nat.add_comm 1]
      have hsplit : (∃ i n, k = offset + i ∧ (first :: rest)[i]? = some n ∧ n.name = name)
          ↔ (k = offset ∧ first.name = name) ∨ k ∈ positionsFrom name (offset + 1) rest := by
        rw [hrest]
        constructor
        · rintro ⟨_ | i, n, hk, hn, hname⟩
          · cases hn
            exact .inl ⟨hk, hname⟩
          · exact .inr ⟨i, n, hk, hn, hname⟩
        · rintro (⟨hk, hname⟩ | ⟨i, n, hk, hn, hname⟩)
          · exact ⟨0, first, hk, rfl, hname⟩
          · exact ⟨i + 1, n, hk, hn, hname⟩
      rw [hsplit, positionsFrom]
      by_cases h : first.name = name <;> simp [h]

/-- The positions of a name are the places where it stands. -/
lemma mem_positionsOf {c : Chain} {name : String} {k : Nat} :
    k ∈ c.positionsOf name ↔ ∃ n, c.nodes[k]? = some n ∧ n.name = name := by
  simp [positionsOf, mem_positionsFrom]

/-- A variable of a chain has a first position, where it stands. -/
lemma exists_head_positionsOf {c : Chain} {k : Nat} {n : ChainNode} (hn : c.nodes[k]? = some n) :
    ∃ first n', (c.positionsOf n.name).head? = some first ∧ c.nodes[first]? = some n'
      ∧ n'.name = n.name := by
  have hk : k ∈ c.positionsOf n.name := mem_positionsOf.2 ⟨n, hn, rfl⟩
  obtain ⟨first, rest, hlist⟩ := List.exists_cons_of_ne_nil (List.ne_nil_of_mem hk)
  obtain ⟨n', hn', hname⟩ :=
    mem_positionsOf.1 (hlist ▸ List.mem_cons_self : first ∈ c.positionsOf n.name)
  exact ⟨first, n', by rw [hlist]; rfl, hn', hname⟩

/-- In a row that agrees with itself the first position of a variable speaks for all. -/
lemma lookup_eq {c : Chain} {r : Row} (h : Matched.Agrees c r) {k : Nat} {n : ChainNode}
    (hn : c.nodes[k]? = some n) : c.lookup r n.name = r[k]? := by
  obtain ⟨first, n', hfirst, hn', hname⟩ := exists_head_positionsOf hn
  rw [lookup, hfirst]
  exact h first k n' n hn' hn hname

end Chain

/-- Looking through the bindings of a row from the front finds the first position of a variable, if
the row is long enough to have it. -/
lemma rowLookup_eq (c : Chain) (r : Row) : rowLookup c.nodes r = c.lookup r := by
  have key : ∀ (before : Row) (nodes : List ChainNode) (r : Row) (name : String),
      Bound.get? ((nodes.map ChainNode.name).zip r) name
        = (Chain.positionsFrom name before.length nodes).head?.bind (fun k =>
          (before ++ r)[k]?) := by
    intro before nodes
    induction nodes generalizing before with
    | nil => intro r name; rfl
    | cons first rest ih =>
        intro r name
        obtain _ | ⟨id, r⟩ := r
        · -- the row has come to its end before the variable
          refine (Option.bind_eq_none_iff.2 fun k hk => ?_).symm
          obtain ⟨i, -, rfl, -⟩ := Chain.mem_positionsFrom.1 (List.mem_of_mem_head? hk)
          simp
        · have hrest := ih (before ++ [id]) r name
          simp only [List.length_append, List.length_singleton, List.append_assoc,
            List.singleton_append] at hrest
          rw [List.map_cons, List.zip_cons_cons, Bound.get?, Chain.positionsFrom]
          split
          · simp
          · exact hrest
  funext name
  exact key [] c.nodes r name

namespace Matched

variable {c : Chain} {m : Matched}

/-- **The rows that start at a node** are those that its pairs and its variables allow. -/
lemma mem_rowsThrough (hm : Shaped c m) {start : NodeId} {r : Row} :
    r ∈ rowsThrough c m start
      ↔ r.length = c.nodes.length ∧ r[0]? = some start
        ∧ (∀ k p q, r[k]? = some p → r[k + 1]? = some q → (p, q) ∈ m.pairs.getD k [])
        ∧ Agrees c r := by
  have hfits := hm.fits
  have hpairs := hm.pairs
  cases hnodes : c.nodes with
  | nil => simp [hnodes] at hfits
  | cons first rest =>
      have hlen : m.pairs.length = (rest.map ChainNode.name).length := by
        rw [hnodes, List.length_cons] at hfits
        rw [List.length_map]
        omega
      have hone : Bound.Functional [(first.name, start)] := by
        intro n a b ha hb
        cases List.mem_singleton.1 ha
        cases List.mem_singleton.1 hb
        rfl
      simp only [rowsThrough, hnodes]
      rw [List.mem_map]
      constructor
      · rintro ⟨tail, htail, rfl⟩
        obtain ⟨hlength, hjoined, hfun⟩ := (mem_rowsFrom hlen hone).1 htail
        have hr : (start :: tail).length = c.nodes.length := by simpa [hnodes] using hlength
        refine ⟨hnodes ▸ hr, rfl, hjoined, (agrees_iff hr).2 ?_⟩
        simpa [hnodes] using hfun
      · rintro ⟨hlength, hstart, hjoined, hagrees⟩
        rw [agrees_iff (hnodes ▸ hlength)] at hagrees
        obtain _ | ⟨p, r⟩ := r
        · cases hstart
        · cases hstart
          refine ⟨r, (mem_rowsFrom hlen hone).2 ⟨by simpa using hlength, hjoined, ?_⟩, rfl⟩
          simpa [hnodes] using hagrees

/-- In a consistent match the rows that start at a candidate are the rows that thread it. -/
lemma threads_iff (h : Consistent c m) (hm : Shaped c m) {r : Row} :
    Threads c m r ↔ ∃ start ∈ m.positions.headD [], r ∈ rowsThrough c m start := by
  have hhead : m.positions.headD [] = m.positions.getD 0 [] := by cases m.positions <;> rfl
  constructor
  · intro hr
    have hpos : 0 < r.length := by
      rw [hr.length_eq, hm.fits]
      omega
    have hstart : r[0]? = some r[0] := List.getElem?_eq_getElem hpos
    exact ⟨r[0], hhead ▸ hr.mem 0 _ hstart,
      (mem_rowsThrough hm).2 ⟨hr.length_eq, hstart, hr.joined, hr.agrees⟩⟩
  · rintro ⟨start, hstart, hr⟩
    obtain ⟨hlength, hzero, hjoined, hagrees⟩ := (mem_rowsThrough hm).1 hr
    refine ⟨hlength, fun k id hid => ?_, hjoined, hagrees⟩
    cases k with
    | zero =>
        cases hzero.symm.trans hid
        exact hhead ▸ hstart
    | succ k =>
        have hk := (List.getElem?_eq_some_iff.1 hid).1
        have hp : r[k]? = some r[k] := List.getElem?_eq_getElem (by omega)
        exact (h.ends k _ _ (hjoined k _ _ hp hid)).2

end Matched

/-! ### The nodes of rows, position by position -/

@[simp] lemma length_columns (width : Nat) {rows : List Row} (h : ∀ r ∈ rows, r.length = width) :
    (columns width rows).length = width := by
  induction rows with
  | nil => simp [columns]
  | cons r rest ih =>
      have hrest := ih fun r hr => h r (List.mem_cons_of_mem _ hr)
      have hr := h r List.mem_cons_self
      show (List.zipWith NodeSet.insert r (columns width rest)).length = width
      rw [List.length_zipWith, hr, hrest, Nat.min_self]

/-- The set at a position holds the nodes that the rows have there. -/
lemma mem_columns {width : Nat} {rows : List Row} (h : ∀ r ∈ rows, r.length = width) {k : Nat}
    {id : NodeId} : id ∈ (columns width rows).getD k [] ↔ ∃ r ∈ rows, r[k]? = some id := by
  induction rows with
  | nil =>
      rw [mem_getD]
      simp [columns, List.getElem?_replicate]
  | cons r rest ih =>
      have hwidth : ∀ r ∈ rest, r.length = width := fun r hr => h r (List.mem_cons_of_mem _ hr)
      have hcolumns : columns width (r :: rest)
          = List.zipWith NodeSet.insert r (columns width rest) := rfl
      have hlen : r.length = (columns width rest).length := by
        rw [length_columns width hwidth, h r List.mem_cons_self]
      have hstep : id ∈ (columns width (r :: rest)).getD k []
          ↔ r[k]? = some id ∨ id ∈ (columns width rest).getD k [] := by
        rw [hcolumns, mem_getD, mem_getD]
        by_cases hk : k < r.length
        · have hr : r[k]? = some r[k] := List.getElem?_eq_getElem hk
          have hset : (columns width rest)[k]? = some (columns width rest)[k] :=
            List.getElem?_eq_getElem (hlen ▸ hk)
          simp [List.getElem?_zipWith, hr, hset, NodeSet.mem_insert, eq_comm]
        · have hr : r[k]? = none := List.getElem?_eq_none (by omega)
          have hset : (columns width rest)[k]? = none := List.getElem?_eq_none (by omega)
          simp [List.getElem?_zipWith, hr, hset]
      rw [hstep, ih hwidth]
      simp

lemma ascending_columns (width : Nat) (rows : List Row) :
    ∀ set ∈ columns width rows, NodeSet.Ascending set := by
  induction rows with
  | nil =>
      intro set hset
      rw [List.eq_of_mem_replicate hset]
      exact List.Pairwise.nil
  | cons r rest ih =>
      intro set hset
      obtain ⟨k, hk⟩ := List.mem_iff_getElem?.1 hset
      have hzip : (List.zipWith NodeSet.insert r (columns width rest))[k]? = some set := hk
      obtain ⟨id, before, -, hbefore, rfl⟩ := List.getElem?_zipWith_eq_some.1 hzip
      exact NodeSet.ascending_insert (ih before (List.mem_of_getElem? hbefore))

/-! ### Asking a predicate of rows -/

namespace Matched

variable {c : Chain} {m : Matched} {s : Store} {predicate : Option Expr}

/-- The rows of a match that pass a predicate. -/
def passingRows (s : Store) (c : Chain) (predicate : Option Expr) (m : Matched) : List Row :=
  ((m.positions.headD []).flatMap (rowsThrough c m)).filter
    (fun r => predicate.all (fun e => e.holds s (rowLookup c.nodes r)))

/-- Rows that pass are projected to their columns, however the work is cut up. -/
lemma filterRows_eq (schedule : Schedule) (s : Store) (c : Chain) (predicate : Option Expr)
    (m : Matched) :
    m.filterRows schedule s c predicate
      = { m with positions := columns c.nodes.length (passingRows s c predicate m) } := by
  rw [filterRows, schedule.run_of_append]
  · rfl
  · rfl
  · intro xs ys
    rw [List.flatMap_append, List.filter_append]

/-- A row passes if it threads the match and the predicate holds of what it binds the variables to.
-/
lemma mem_passingRows (h : Consistent c m) (hm : Shaped c m) {r : Row} :
    r ∈ passingRows s c predicate m
      ↔ Threads c m r ∧ ∀ e ∈ predicate, e.holds s (c.lookup r) := by
  rw [passingRows, List.mem_filter, List.mem_flatMap, ← threads_iff h hm]
  refine and_congr_right fun _ => ?_
  rw [rowLookup_eq]
  cases predicate <;> simp

lemma length_of_mem_passingRows (h : Consistent c m) (hm : Shaped c m) :
    ∀ r ∈ passingRows s c predicate m, r.length = c.nodes.length :=
  fun _ hr => ((mem_passingRows h hm).1 hr).1.length_eq

lemma shaped_filterRows (schedule : Schedule) (h : Consistent c m) (hm : Shaped c m) :
    Shaped c (m.filterRows schedule s c predicate) := by
  rw [filterRows_eq]
  exact ⟨length_columns _ (length_of_mem_passingRows h hm), hm.pairs, hm.fits⟩

/-- **Asking rows** leaves at each position the nodes of the rows that pass. -/
lemma mem_filterRows (schedule : Schedule) (h : Consistent c m) (hm : Shaped c m) {k : Nat}
    {id : NodeId} :
    id ∈ (m.filterRows schedule s c predicate).positions.getD k []
      ↔ ∃ r, (Threads c m r ∧ ∀ e ∈ predicate, e.holds s (c.lookup r)) ∧ r[k]? = some id := by
  rw [filterRows_eq, mem_columns (length_of_mem_passingRows h hm)]
  simp only [mem_passingRows h hm]

lemma ascending_filterRows (schedule : Schedule) :
    ∀ set ∈ (m.filterRows schedule s c predicate).positions, NodeSet.Ascending set := by
  rw [filterRows_eq]
  exact ascending_columns _ _

end Matched
end CodeGraph
