import CodeGraph.Proofs.Candidates

/-!
The names of nodes and the index of their labels.

* `Node.hasLabel_name`: the label of a kind is carried by the nodes of that kind and of all kinds
  below it.
* `filter_scanned`: whichever list of the index a scan starts from, the candidates are those of a
  walk over all nodes, in the same order.
* `Store.Reachable.index_exact`: names count the nodes, an added node leaves the others as they are,
  and the list of a label holds exactly the nodes that carry it.
-/

namespace CodeGraph

/-- The label of a kind is carried by the nodes of that kind and of all kinds below it. -/
lemma Node.hasLabel_name (n : Node) (k : Kind) : n.hasLabel ⟨k.name⟩ = n.kind.isA k := by
  have hiff : (⟨k.name⟩ : Label) ∈ n.kind.labels ↔ k ∈ n.kind.lineage := by
    rw [Kind.labels, List.mem_map]
    constructor
    · rintro ⟨other, hother, heq⟩
      exact Kind.name_injective (congrArg Label.text heq) ▸ hother
    · intro hk
      exact ⟨k, hk, rfl⟩
  rw [hasLabel, labels, Kind.isA]
  exact decide_eq_decide.2 hiff

/-- **Any list of the index will do**: what a scan keeps is what a walk over all nodes keeps, in the
same order. -/
lemma filter_scanned {s : Store} (h : s.Indexed) (n : ChainNode) (filter : Option Expr) :
    (scanned s n).filter (accepts s n filter)
      = (s.nodes.toList.map Node.id).filter (accepts s n filter) := by
  have hscanned := (ascending_scanned h n).sublist (List.filter_sublist (p := accepts s n filter))
  have hall := h.ascending_ids.sublist (List.filter_sublist (p := accepts s n filter))
  refine hscanned.ext hall fun id => ?_
  rw [List.mem_filter, List.mem_filter]
  refine and_congr_left fun haccepts => ?_
  obtain ⟨⟨node, hnode, hlabels⟩, -⟩ := accepts_iff.1 haccepts
  have hid : id ∈ s.nodes.toList.map Node.id :=
    List.mem_map.2 ⟨node, Store.mem_nodes.2 ⟨id, hnode⟩, h.id_eq id node hnode⟩
  exact iff_of_true (mem_scanned h hnode hlabels) hid

namespace Store

/-- **Names and the index.** In every store that changes make of the empty one, whatever nodes were
added, the name of a node is its place. A node that is added takes the next name and leaves the
others as they are. The list of a label holds the nodes that carry it, in ascending order and each
once; that of a kind holds the nodes of the kind and of all kinds below it. So a scan that starts
from the shortest list of its labels keeps what a walk over all nodes would keep, in the same order,
whatever the limit. -/
theorem Reachable.index_exact {s : Store} (hs : s.Reachable) :
    (∀ (i : Nat) (n : Node), s.nodes[i]? = some n → n.id = ⟨i⟩)
      ∧ (∀ n, (s.add n).2 = ⟨s.size⟩ ∧ (s.add n).1.size = s.size + 1
          ∧ (s.add n).1.node? ⟨s.size⟩ = some { n with id := ⟨s.size⟩ }
          ∧ ∀ id, s.hasNode id → (s.add n).1.node? id = s.node? id)
      ∧ (∀ label, NodeSet.Ascending (s.labelIds label)
          ∧ ∀ id, id ∈ s.labelIds label ↔ ∃ n, s.node? id = some n ∧ n.hasLabel label)
      ∧ (∀ (k : Kind) id, id ∈ s.labelIds ⟨k.name⟩ ↔ ∃ n, s.node? id = some n ∧ n.kind.isA k)
      ∧ ∀ schedule n filter limit, scan schedule s n filter limit
          = upTo limit ((s.nodes.toList.map Node.id).filter (accepts s n filter)) := by
  have h := hs.indexed
  refine ⟨fun i n hn => h.id_eq ⟨i⟩ n hn, fun n => ⟨rfl, s.size_add n, ?_, fun id hid => ?_⟩,
    fun label => ⟨h.ascending_labelIds label, fun id => h.mem_labelIds⟩, fun k id => ?_,
    fun schedule n filter limit => ?_⟩
  · rw [node?_add, if_pos rfl]
  · rw [node?_add, if_neg (Nat.ne_of_lt ((s.hasNode_iff id).1 hid))]
  · simp only [h.mem_labelIds, Node.hasLabel_name]
  · rw [scan_eq, filter_scanned h]

/-- A method, a copy of it that brings its name along, and a node of no special kind under a name
that is taken: the copy is found under its new name, and both methods among the functions. -/
theorem Reachable.index_exact_of_copy :
    let m : Node := { id := ⟨0⟩, kind := .methodDeclaration }
    let s := run {} [.add m, .add { id := ⟨0⟩, kind := .node }, .add m,
      .addEdge ⟨2⟩ ⟨"calls"⟩ ⟨0⟩ .incoming]
    s.Reachable ∧ (∀ n, s.nodes[2]? = some n → n.id = ⟨2⟩)
      ∧ NodeSet.Ascending (s.labelIds ⟨"FunctionDeclaration"⟩)
      ∧ (∀ id, id ∈ s.labelIds ⟨"FunctionDeclaration"⟩ ↔ ∃ n,
        s.node? id = some n ∧ n.kind.isA .functionDeclaration)
      ∧ s.labelIds ⟨"FunctionDeclaration"⟩ = [⟨0⟩, ⟨2⟩] := by
  intro m s
  have hs : s.Reachable := ⟨_, rfl⟩
  obtain ⟨hid, -, hlabel, hkind, -⟩ := hs.index_exact
  exact ⟨hs, hid 2, (hlabel _).1, hkind .functionDeclaration, by decide⟩

end Store
end CodeGraph
