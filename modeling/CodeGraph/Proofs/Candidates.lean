import CodeGraph.Match.Candidates
import CodeGraph.Proofs.Growth
import CodeGraph.Proofs.Scheduling

/-!
The candidates of a position are the nodes that can stand there.

* `NodeSet.Ascending.ext`, `NodeSet.Ascending.sublist_of_subset`: a set is told by its members, and
  so is which sets are part of it.
* `Indexed.mem_labelIds`, `Indexed.ascending_labelIds`: what the index of a label lists.
* `mem_scan`, `ascending_scan`: the candidates of a first position are all acceptable nodes of the
  store, whichever label the scan starts from.
* `mem_expand`: the pairs of a step lead from a candidate to every acceptable node that the step
  leads to.
-/

namespace CodeGraph

/-! ### Sets of nodes -/

lemma NodeSet.Ascending.sublist {xs ys : List NodeId} (h : NodeSet.Ascending ys)
    (hsub : xs.Sublist ys) :
    NodeSet.Ascending xs :=
  List.Pairwise.sublist hsub h

/-- Ascending lists with the same members are the same list. -/
lemma NodeSet.Ascending.ext {xs ys : List NodeId} (h : NodeSet.Ascending xs)
    (h' : NodeSet.Ascending ys)
    (hmem : ∀ id, id ∈ xs ↔ id ∈ ys) : xs = ys := by
  have : Std.Irrefl (fun a b : NodeId => a.index < b.index) := ⟨fun a => Nat.lt_irrefl a.index⟩
  have : Std.Antisymm (fun a b : NodeId => a.index < b.index) :=
    ⟨fun _ _ hab hba => absurd hba (Nat.lt_asymm hab)⟩
  exact List.Pairwise.eq_of_mem_iff h h' hmem

/-- An ascending list has the members of a part of it in the same order. -/
lemma NodeSet.Ascending.sublist_of_subset {xs ys : List NodeId} (h : NodeSet.Ascending xs)
    (h' : NodeSet.Ascending ys) (hsub : xs ⊆ ys) : xs.Sublist ys := by
  have : Std.Irrefl (fun a b : NodeId => a.index < b.index) := ⟨fun a => Nat.lt_irrefl a.index⟩
  have : Std.Antisymm (fun a b : NodeId => a.index < b.index) :=
    ⟨fun _ _ hab hba => absurd hba (Nat.lt_asymm hab)⟩
  exact List.sublist_of_subperm_of_pairwise
    (List.subperm_of_subset (List.Pairwise.nodup h) hsub) h h'

/-! ### The index of a label -/

namespace Store

/-- The names of the nodes of a store count them. -/
lemma Indexed.map_id {s : Store} (h : s.Indexed) :
    s.nodes.toList.map Node.id = (List.range s.size).map NodeId.mk := by
  refine List.ext_getElem (by simp [size]) fun i hi _ => ?_
  have hnode : i < s.nodes.size := by simpa using hi
  have hid := h.id_eq ⟨i⟩ s.nodes[i] (Array.getElem?_eq_getElem hnode)
  simpa using hid

lemma Indexed.ascending_ids {s : Store} (h : s.Indexed) :
    NodeSet.Ascending (s.nodes.toList.map Node.id) := by
  rw [h.map_id]
  exact List.pairwise_map.2 List.pairwise_lt_range

lemma mem_nodes {s : Store} {n : Node} : n ∈ s.nodes.toList ↔ ∃ id, s.node? id = some n := by
  rw [List.mem_iff_getElem?]
  constructor
  · rintro ⟨i, hi⟩
    exact ⟨⟨i⟩, by simpa [node?] using hi⟩
  · rintro ⟨id, hid⟩
    exact ⟨id.index, by simpa [node?] using hid⟩

/-- A node is among the nodes under its name. -/
lemma Indexed.mem_map_filter {s : Store} (h : s.Indexed) {p : Node → Bool} {id : NodeId} :
    id ∈ (s.nodes.toList.filter p).map Node.id ↔ ∃ n, s.node? id = some n ∧ p n := by
  constructor
  · intro hid
    obtain ⟨n, hn, rfl⟩ := List.mem_map.1 hid
    obtain ⟨hmem, hp⟩ := List.mem_filter.1 hn
    obtain ⟨other, hother⟩ := mem_nodes.1 hmem
    exact ⟨n, h.id_eq other n hother ▸ hother, hp⟩
  · rintro ⟨n, hn, hp⟩
    exact List.mem_map.2 ⟨n, List.mem_filter.2 ⟨mem_nodes.2 ⟨id, hn⟩, hp⟩, h.id_eq id n hn⟩

/-- The nodes under a label are those that have it. -/
lemma Indexed.mem_labelIds {s : Store} (h : s.Indexed) {label : Label} {id : NodeId} :
    id ∈ s.labelIds label ↔ ∃ n, s.node? id = some n ∧ n.hasLabel label := by
  rw [h.labelIds_eq]
  exact h.mem_map_filter

lemma Indexed.ascending_labelIds {s : Store} (h : s.Indexed) (label : Label) :
    NodeSet.Ascending (s.labelIds label) := by
  rw [h.labelIds_eq]
  exact h.ascending_ids.sublist (List.filter_sublist.map Node.id)

end Store

/-! ### Scanning -/

/-- What a node must be to stand at a position. -/
lemma accepts_iff {s : Store} {n : ChainNode} {filter : Option Expr} {id : NodeId} :
    accepts s n filter id
      ↔ (∃ node, s.node? id = some node ∧ node.hasLabels n.labels)
        ∧ ∀ e ∈ filter, e.holds s (lookupOne n.name id) := by
  rw [accepts]
  cases s.node? id with
  | none => simp
  | some node => cases filter <;> simp

/-- The shortest of some lists is one of them. -/
lemma shortest_mem {lists : List (List NodeId)} {ids : List NodeId}
    (h : shortest lists = some ids) :
    ids ∈ lists := by
  induction lists generalizing ids with
  | nil => cases h
  | cons first rest ih =>
      rw [shortest] at h
      split at h
      · rename_i other hrest
        split at h
        · cases h
          exact List.mem_cons_of_mem _ (ih hrest)
        · cases h
          exact List.mem_cons_self
      · cases h
        exact List.mem_cons_self

/-- The names that are scanned are those of a label of the position, or all if it has none. -/
lemma scanned_cases (s : Store) (n : ChainNode) :
    (∃ label ∈ n.labels, scanned s n = s.labelIds label)
      ∨ scanned s n = s.nodes.toList.map Node.id := by
  cases h : shortest (n.labels.map s.labelIds) with
  | none => exact .inr (by rw [scanned, h]; rfl)
  | some ids =>
      obtain ⟨label, hlabel, rfl⟩ := List.mem_map.1 (shortest_mem h)
      exact .inl ⟨label, hlabel, by rw [scanned, h]; rfl⟩

lemma ascending_scanned {s : Store} (h : s.Indexed) (n : ChainNode) :
    NodeSet.Ascending (scanned s n) := by
  obtain ⟨label, -, hscan⟩ | hscan := scanned_cases s n <;> rw [hscan]
  · exact h.ascending_labelIds label
  · exact h.ascending_ids

/-- Whichever label the scan starts from, no acceptable node is missed. -/
lemma mem_scanned {s : Store} (h : s.Indexed) {n : ChainNode} {id : NodeId} {node : Node}
    (hnode : s.node? id = some node) (hlabels : node.hasLabels n.labels) : id ∈ scanned s n := by
  obtain ⟨label, hlabel, hscan⟩ | hscan := scanned_cases s n <;> rw [hscan]
  · exact h.mem_labelIds.2 ⟨node, hnode, List.all_eq_true.1 hlabels label hlabel⟩
  · exact List.mem_map.2 ⟨node, Store.mem_nodes.2 ⟨id, hnode⟩, h.id_eq id node hnode⟩

/-- A scan keeps the acceptable names, up to its limit. -/
lemma scan_eq (schedule : Schedule) (s : Store) (n : ChainNode) (filter : Option Expr)
    (limit : Option Nat) :
    scan schedule s n filter limit = upTo limit ((scanned s n).filter (accepts s n filter)) := by
  have hselect : (fun id => if accepts s n filter id then some id else none)
      = Option.guard (fun id => accepts s n filter id) := by
    funext id
    simp [Option.guard]
  rw [scan, Schedule.firstMatches_eq, hselect, List.filterMap_eq_filter]

/-- Whatever the limit, only acceptable nodes are found. -/
lemma accepts_of_mem_scan {schedule : Schedule} {s : Store} {n : ChainNode} {filter : Option Expr}
    {limit : Option Nat} {id : NodeId} (h : id ∈ scan schedule s n filter limit) :
    accepts s n filter id := by
  rw [scan_eq] at h
  exact (List.mem_filter.1 ((upTo_sublist limit _).subset h)).2

/-- **Scanning**: without a limit the candidates of a first position are all acceptable nodes. -/
lemma mem_scan {s : Store} (h : s.Indexed) (schedule : Schedule) {n : ChainNode}
    {filter : Option Expr}
    {id : NodeId} : id ∈ scan schedule s n filter none ↔ accepts s n filter id := by
  refine ⟨accepts_of_mem_scan, fun haccepts => ?_⟩
  rw [scan_eq, upTo, List.mem_filter]
  refine ⟨?_, haccepts⟩
  obtain ⟨⟨node, hnode, hlabels⟩, -⟩ := accepts_iff.1 haccepts
  exact mem_scanned h hnode hlabels

lemma ascending_scan {s : Store} (h : s.Indexed) (schedule : Schedule) (n : ChainNode)
    (filter : Option Expr) (limit : Option Nat) :
    NodeSet.Ascending (scan schedule s n filter limit) := by
  rw [scan_eq]
  exact (ascending_scanned h n).sublist ((upTo_sublist limit _).trans List.filter_sublist)

/-! ### Expanding -/

/-- A step from some nodes takes them one after the other, however the work is cut up. -/
lemma expand_eq (schedule : Schedule) (s : Store) (previous : List NodeId) (step : ChainStep)
    (next : ChainNode) (filter : Option Expr) :
    expand schedule s previous step next filter
      = previous.flatMap (fun p =>
        ((step.ends s p).filter (accepts s next filter)).map (fun q => (p, q))) :=
  schedule.run_of_append rfl (fun _ _ => List.flatMap_append) previous

/-- **Expanding**: the pairs of a step lead from a candidate to the acceptable nodes that the step
leads to. -/
lemma mem_expand {schedule : Schedule} {s : Store} {previous : List NodeId} {step : ChainStep}
    {next : ChainNode} {filter : Option Expr} {p q : NodeId} :
    (p, q) ∈ expand schedule s previous step next filter
      ↔ p ∈ previous ∧ q ∈ step.ends s p ∧ accepts s next filter q := by
  rw [expand_eq, List.mem_flatMap]
  constructor
  · rintro ⟨p', hp', hpair⟩
    obtain ⟨q', hq', heq⟩ := List.mem_map.1 hpair
    cases heq
    exact ⟨hp', (List.mem_filter.1 hq').1, (List.mem_filter.1 hq').2⟩
  · rintro ⟨hp, hq, haccepts⟩
    exact ⟨p, hp, List.mem_map.2 ⟨q, List.mem_filter.2 ⟨hq, haccepts⟩, rfl⟩⟩

end CodeGraph
