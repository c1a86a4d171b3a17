import CodeGraph.Proofs.Meaning
import CodeGraph.Proofs.EdgeLog

/-!
Following the edges of a node.

The far ends of a node are read off its edge lists: direction after direction, name after name, and
for each name the lists of the groups alike to it in the order of their first use. A node that is
met again, by another name, direction or group, does not count, so the far ends are the nodes met on
the way, each at the place where it is met first.

* `FirstOccurrences`: the distinct members of a list, in the order in which they first occur.
  `firstOccurrences_unseen`: what is left when members that were seen are passed over.
* `Node.trail`: the nodes that are met when the edge lists of a node are followed.
* `Store.groups_run`: the groups of a node stand in the order in which edges of them were joined
  first.
* `Store.farEnds_follow_trail`: the far ends of a node are the first occurrences on its trail.
-/

namespace CodeGraph

/-! ### First occurrences -/

/-- A list holds the members of another one, each once and in the order in which they first occur
there. -/
structure FirstOccurrences {α : Type} [DecidableEq α] (xs ys : List α) : Prop where
  nodup : ys.Nodup
  mem_iff : ∀ x, x ∈ ys ↔ x ∈ xs
  inOrder : ys.Pairwise fun x y => xs.idxOf x < xs.idxOf y

namespace Store

variable {s : Store} {id : NodeId} {names : List Group} {directions : List Direction}

/-- What was seen before is passed over, and what is left stands in the order of its first
occurrences. -/
lemma pairwise_unseen (seen ids : List NodeId) :
    (unseen seen ids).Pairwise fun x y => ids.idxOf x < ids.idxOf y := by
  induction ids generalizing seen with
  | nil => exact .nil
  | cons id rest ih =>
      -- after the first member everything is one place further on
      have hlater : ∀ {others : List NodeId}, id ∉ others →
          others.Pairwise (fun x y => rest.idxOf x < rest.idxOf y) →
          others.Pairwise fun x y => (id :: rest).idxOf x < (id :: rest).idxOf y := by
        intro others hid hothers
        refine hothers.imp_of_mem fun {x y} hx hy hlt => ?_
        rw [List.idxOf_cons_ne _ (ne_of_mem_of_not_mem hx hid).symm,
          List.idxOf_cons_ne _ (ne_of_mem_of_not_mem hy hid).symm]
        exact Nat.succ_lt_succ hlt
      rw [unseen]
      split
      · rename_i hseen
        exact hlater (fun hmem => ((mem_unseen seen rest).1 hmem).2 hseen) (ih seen)
      · have hid : id ∉ unseen (id :: seen) rest := fun hmem =>
          ((mem_unseen (id :: seen) rest).1 hmem).2 List.mem_cons_self
        refine List.pairwise_cons.2 ⟨fun x hx => ?_, hlater hid (ih (id :: seen))⟩
        rw [List.idxOf_cons_self, List.idxOf_cons_ne _ (ne_of_mem_of_not_mem hx hid).symm]
        exact Nat.succ_pos _

/-- **Passing over what was seen** leaves the first occurrences. -/
lemma firstOccurrences_unseen (ids : List NodeId) : FirstOccurrences ids (unseen [] ids) where
  nodup := (pairwise_unseen [] ids).imp fun hlt heq => (heq ▸ hlt).false
  mem_iff x := by simp [mem_unseen]
  inOrder := pairwise_unseen [] ids

end Store

/-! ### The trail of a node -/

/-- Groups are alike if their names differ in the case of letters only. -/
lemma Group.alike_iff (g other : Group) :
    g.alike other ↔ g.name.toList.map Char.toLower = other.name.toList.map Char.toLower := by
  rw [alike, folded, folded, beq_iff_eq, ← String.toList_inj, String.toList_map, String.toList_map]

/-- The groups of edge lists that some names ask for: for each name those alike to it, and all
without a name. -/
def EdgeLists.groupsAlike (e : EdgeLists) : List Group → List Group
  | [] => e.groups
  | names => names.flatMap fun name => e.groups.filter fun g => g.alike name

/-- The nodes that are met when the edge lists of a node are followed: direction after direction,
group after group. -/
def Node.trail (n : Node) (names : List Group) (directions : List Direction) : List NodeId :=
  directions.flatMap fun d =>
    ((n.edges d).groupsAlike names).flatMap fun g => ((n.edges d).ofGroup g).map fun entry =>
      entry.farEnd d

lemma EdgeLists.inGroup_eq_flatMap (e : EdgeLists) (name : Group) :
    e.inGroup name = (e.groups.filter fun g => g.alike name).flatMap e.ofGroup := by
  rw [inGroup, groups, List.filter_map, List.flatMap_map]
  exact List.flatMap_congr fun l hl => (ofGroup_of_mem (List.mem_of_mem_filter hl)).symm

/-- The entries that some names ask for, group after group. -/
lemma EdgeLists.selectAny_eq_flatMap (e : EdgeLists) (names : List Group) :
    e.selectAny names = (e.groupsAlike names).flatMap e.ofGroup := by
  cases names with
  | nil => exact e.all_eq_flatMap
  | cons name rest =>
      rw [selectAny, groupsAlike, List.flatMap_assoc]
      · exact List.flatMap_congr fun name _ => e.inGroup_eq_flatMap name
      all_goals exact List.cons_ne_nil name rest

namespace Store

variable {s : Store} {id : NodeId} {names : List Group} {directions : List Direction}

lemma farEnds_eq_unseen_trail {n : Node} (hn : s.node? id = some n) :
    s.farEnds id names directions = unseen [] (n.trail names directions) := by
  rw [farEnds, hn, Node.trail]
  simp only [EdgeLists.selectAny_eq_flatMap, List.map_flatMap]

/-- A name that all groups of a node are alike to leaves out no entry. -/
lemma farEnds_of_alike {n : Node} {name : Group} (hn : s.node? id = some n)
    (h : ∀ d ∈ directions, ∀ g ∈ (n.edges d).groups, g.alike name) :
    s.farEnds id [name] directions = s.farEnds id [] directions := by
  rw [farEnds_eq_unseen_trail hn, farEnds_eq_unseen_trail hn, Node.trail, Node.trail]
  refine congrArg (unseen []) (List.flatMap_congr fun d hd => ?_)
  have hall : (n.edges d).groupsAlike [name] = (n.edges d).groupsAlike [] := by
    rw [EdgeLists.groupsAlike, EdgeLists.groupsAlike, List.flatMap_singleton]
    · exact List.filter_eq_self.2 (h d hd)
    · exact List.cons_ne_nil name []
  rw [hall]

/-- An unknown node has no far ends. -/
lemma farEnds_of_node?_eq_none (h : s.node? id = none) : s.farEnds id names directions = [] := by
  rw [farEnds, h]

/-- The far ends of a node, told by the entries of its edge lists. -/
lemma mem_farEnds_iff_edges {v : NodeId} :
    v ∈ s.farEnds id names directions
      ↔ ∃ d ∈ directions, ∃ entry ∈ s.edges id none d, entry.farEnd d = v
        ∧ (names = [] ∨ ∃ name ∈ names, entry.group.alike name) := by
  rw [mem_farEnds]
  constructor
  · rintro ⟨n, d, entry, hn, hd, hentry, hv, hname⟩
    refine ⟨d, hd, entry, ?_, hv, hname⟩
    rwa [edges, hn]
  · rintro ⟨d, hd, entry, hentry, hv, hname⟩
    rw [edges] at hentry
    cases hn : s.node? id with
    | none => simp [hn] at hentry
    | some n =>
        rw [hn] at hentry
        exact ⟨n, d, entry, rfl, hd, hentry, hv, hname⟩

/-- Far ends do not depend on the order of names and directions, nor on how often one is listed. -/
lemma mem_farEnds_congr {names' : List Group} {directions' : List Direction}
    (hnames : ∀ g, g ∈ names ↔ g ∈ names') (hdirections : ∀ d, d ∈ directions ↔ d ∈ directions')
    {v : NodeId} :
    v ∈ s.farEnds id names directions ↔ v ∈ s.farEnds id names' directions' := by
  have hnil : names = [] ↔ names' = [] := by
    simp only [List.eq_nil_iff_forall_not_mem, hnames]
  simp only [mem_farEnds_iff_edges, hnames, hdirections, hnil]

/-- Whatever changes are made, the groups of a node keep their places, and those of the edges joined
at the node follow in the order of their first use. -/
lemma groups_run {n : Node} (hn : s.node? id = some n) (changes : List Change) (d : Direction) :
    ∃ m, (s.run changes).node? id = some m ∧ (m.edges d).groups
      = ((n.edges d).groups
        ++ ((s.joined changes).filter fun l => l.nearEnd d = id).map Link.group).eraseDups := by
  have hnode : s.hasNode id := (s.hasNode_iff_node? id).2 ⟨n, hn⟩
  obtain ⟨m, hm⟩ := ((s.run changes).hasNode_iff_node? id).1 (hasNode_run hnode changes)
  refine ⟨m, hm, ?_⟩
  rw [← listsAt_of_node? hm, listsAt_run s changes id d (.inl hnode), EdgeLists.groups_recordAll,
    listsAt_of_node? hn]

/-- **Following edges.** An unknown node has no far ends. Those of any other node are the first
occurrences on its trail, so each stands there once. A node is among them exactly if an entry in one
of the directions leads there, whose group is alike to one of the names, or any if there is no name.
Which nodes they are is not changed when names or directions are listed in another order or more
than once. The groups that the trail goes through stand in the order in which edges of them were
joined at the node first. -/
theorem farEnds_follow_trail (s : Store) (id : NodeId) (names : List Group)
    (directions : List Direction) :
    (s.node? id = none → s.farEnds id names directions = [])
      ∧ (∀ n, s.node? id = some n →
        FirstOccurrences (n.trail names directions) (s.farEnds id names directions))
      ∧ (∀ v, v ∈ s.farEnds id names directions ↔ ∃ d ∈ directions, ∃ entry ∈ s.edges id none d,
        entry.farEnd d = v ∧ (names = [] ∨ ∃ name ∈ names, entry.group.alike name))
      ∧ (∀ names' directions',
        (∀ g, g ∈ names ↔ g ∈ names') → (∀ d, d ∈ directions ↔ d ∈ directions') →
        ∀ v, v ∈ s.farEnds id names directions ↔ v ∈ s.farEnds id names' directions')
      ∧ ∀ n, s.node? id = some n → ∀ changes d, ∃ m, (s.run changes).node? id = some m
        ∧ (m.edges d).groups = ((n.edges d).groups
          ++ ((s.joined changes).filter fun l => l.nearEnd d = id).map Link.group).eraseDups := by
  refine ⟨farEnds_of_node?_eq_none, fun n hn => ?_, fun v => mem_farEnds_iff_edges,
    fun _ _ hnames hdirections v => mem_farEnds_congr hnames hdirections, fun n hn => groups_run hn⟩
  rw [farEnds_eq_unseen_trail hn]
  exact firstOccurrences_unseen _

/-- A function that calls itself and another one, under two spellings of one group, and is called by
the other one: followed both ways, each of the two is met several times and stands in the far ends
once. Asked for under a third spelling, the far ends are both of them. -/
theorem farEnds_follow_trail_of_loop :
    let base := Store.run {} [.add { kind := .functionDeclaration },
      .add { kind := .functionDeclaration }]
    let calls : List Change := [.addEdge ⟨0⟩ ⟨"calls"⟩ ⟨1⟩ .outgoing,
      .addEdge ⟨0⟩ ⟨"CALLS"⟩ ⟨0⟩ .outgoing, .addEdge ⟨1⟩ ⟨"calls"⟩ ⟨0⟩ .outgoing]
    let s := base.run calls
    let cased : List Group := [⟨"Calls"⟩]
    ∃ n, s.node? ⟨0⟩ = some n ∧ (n.edges .outgoing).groups = [⟨"calls"⟩, ⟨"CALLS"⟩]
      ∧ n.trail [] [.outgoing, .incoming] = [⟨1⟩, ⟨0⟩, ⟨0⟩, ⟨1⟩]
      ∧ s.farEnds ⟨0⟩ [] [.outgoing, .incoming] = [⟨1⟩, ⟨0⟩]
      ∧ FirstOccurrences (n.trail [] [.outgoing, .incoming])
        (s.farEnds ⟨0⟩ [] [.outgoing, .incoming])
      ∧ s.farEnds ⟨0⟩ cased [.outgoing] = [⟨1⟩, ⟨0⟩]
      ∧ (∀ v, v ∈ s.farEnds ⟨0⟩ cased [.outgoing] ↔ ∃ d ∈ [Direction.outgoing],
        ∃ entry ∈ s.edges ⟨0⟩ none d, entry.farEnd d = v
          ∧ (cased = [] ∨ ∃ name ∈ cased, entry.group.alike name))
      ∧ (∀ v, v ∈ s.farEnds ⟨0⟩ [⟨"calls"⟩, ⟨"uses"⟩] [.outgoing] ↔
        v ∈ s.farEnds ⟨0⟩ [⟨"uses"⟩, ⟨"calls"⟩, ⟨"uses"⟩] [.outgoing, .outgoing])
      ∧ s.node? ⟨2⟩ = none ∧ s.farEnds ⟨2⟩ [] [.outgoing] = [] := by
  have hnames : ∀ g : Group, g ∈ [⟨"calls"⟩, ⟨"uses"⟩] ↔ g ∈ [⟨"uses"⟩, ⟨"calls"⟩, ⟨"uses"⟩] := by
    intro g
    simp only [List.mem_cons, List.not_mem_nil, or_false]
    tauto
  intro base calls s cased
  have hnone : s.node? ⟨2⟩ = none := by decide +kernel
  have htrail : (s.node? ⟨0⟩).map (fun n => n.trail [] [.outgoing, .incoming])
      = some [⟨1⟩, ⟨0⟩, ⟨0⟩, ⟨1⟩] := by
    decide +kernel
  have hgroups : (base.listsAt ⟨0⟩ .outgoing).groups
      ++ ((base.joined calls).filter fun l => l.nearEnd .outgoing = ⟨0⟩).map Link.group
        = [⟨"calls"⟩, ⟨"CALLS"⟩] := by
    decide +kernel
  obtain ⟨bare, hbare⟩ : ∃ bare, base.node? ⟨0⟩ = some bare := ⟨_, rfl⟩
  obtain ⟨n, hn, hfirst⟩ := (farEnds_follow_trail base ⟨0⟩ [] []).2.2.2.2 bare hbare calls .outgoing
  rw [← listsAt_of_node? hbare, hgroups] at hfirst
  rw [hn, Option.map_some, Option.some_inj] at htrail
  have hspelled : (n.edges .outgoing).groups = [⟨"calls"⟩, ⟨"CALLS"⟩] :=
    hfirst.trans (by decide +kernel)
  have hcased : s.farEnds ⟨0⟩ cased [.outgoing] = [⟨1⟩, ⟨0⟩] := by
    refine (farEnds_of_alike hn ?_).trans (by decide +kernel)
    simp only [List.forall_mem_singleton, hspelled, List.forall_mem_cons, Group.alike_iff]
    decide +kernel
  exact ⟨n, hn, hspelled, htrail, by decide +kernel,
    (farEnds_follow_trail s ⟨0⟩ [] _).2.1 n hn, hcased,
    (farEnds_follow_trail s ⟨0⟩ cased _).2.2.1,
    (farEnds_follow_trail s ⟨0⟩ _ _).2.2.2.1 _ _ hnames
      (by simp), hnone, (farEnds_follow_trail s ⟨2⟩ [] _).1 hnone⟩

end Store
end CodeGraph
