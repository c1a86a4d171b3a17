import CodeGraph.Proofs.EdgeLog

/-!
When every edge is recorded at both of its ends.

A store is whole if the entries of a node are entries of edges at that node whose other end exists,
if the two ends of every edge agree on it, and if the entries are as many as the edges counted. A
node that brings entries with it keeps them when it is added, whatever its new name.

* `Store.Whole`: the four demands.
* `EdgeLists.links_recordAll_perm`: recording edges adds these edges and no others.
* `whole_run`: changes that add bare nodes make a whole store.
* `isBare_of_whole`: no other changes do.
* `whole_iff`: a store is whole exactly if all nodes added to it were bare.
* `copy_not_whole`: a copy of a node with an edge, added again, is at fault.
-/

namespace CodeGraph

/-! ### The edges that entries stand for -/

/-- The edge that an entry stands for. -/
def Edge.link (e : Edge) : Link := ⟨e.source, e.group, e.target⟩

namespace EdgeLists

/-- The edges that the entries of a node stand for. -/
def links (e : EdgeLists) : List Link := e.all.map Edge.link

/-- Recording an edge adds this edge and no other. -/
lemma links_record_perm (e : EdgeLists) (l : Link) :
    (e.record l.source l.sink l.group).links.Perm (e.links ++ [l]) := by
  have key : ∀ lists : List (Group × Array Edge),
      (((recordIn l.source l.sink l.group lists).flatMap (fun l => l.2.toList)).map Edge.link).Perm
        ((lists.flatMap (fun l => l.2.toList)).map Edge.link ++ [l]) := by
    intro lists
    induction lists with
    | nil => simp [recordIn, Edge.link]
    | cons first rest ih =>
        obtain ⟨g, entries⟩ := first
        by_cases hg : g = l.group
        · simp only [recordIn, hg, if_true, List.flatMap_cons, List.map_append, Array.toList_push,
            List.map_cons, List.map_nil, List.append_assoc]
          exact List.Perm.append_left _ List.perm_append_comm
        · simp only [recordIn, hg, if_false, List.flatMap_cons, List.map_append, List.append_assoc]
          exact List.Perm.append_left _ ih
  exact key e.lists

/-- **Recording edges** adds these edges and no others. -/
lemma links_recordAll_perm (e : EdgeLists) (links : List Link) :
    (e.recordAll links).links.Perm (e.links ++ links) := by
  induction links using List.reverseRecOn with
  | nil => simp [recordAll]
  | append_singleton links l ih =>
      rw [recordAll_concat, ← List.append_assoc]
      exact (links_record_perm _ l).trans (ih.append_right [l])

lemma countP_all (e : EdgeLists) (p : Link → Bool) :
    e.all.countP (fun x => p x.link) = e.links.countP p := by
  rw [links, List.countP_map]
  rfl

end EdgeLists

/-! ### Whole stores -/

namespace Store

/-- **A whole store**: the outgoing entries of a node are entries of edges from it to a node of the
store, its incoming entries are entries of edges to it from a node of the store, two nodes agree on
the number of edges from one to the other in each group, and the edges counted are the outgoing
entries. -/
structure Whole (s : Store) : Prop where
  outgoing : ∀ u n e, s.node? u = some n → e ∈ n.outgoing.all → e.source = u ∧ s.hasNode e.target
  incoming : ∀ u n e, s.node? u = some n → e ∈ n.incoming.all → e.target = u ∧ s.hasNode e.source
  balanced : ∀ u v m n group, s.node? u = some m → s.node? v = some n →
    m.outgoing.all.countP (fun e => e.target = v ∧ e.group = group)
      = n.incoming.all.countP (fun e => e.source = u ∧ e.group = group)
  counted : s.edgeCount = s.degreeSum .outgoing

/-- The edges of a group from one node to another. -/
def isFromTo (u v : NodeId) (group : Group) (l : Link) : Bool :=
  l.source = u ∧ l.sink = v ∧ l.group = group

/-- The outgoing entries towards a node, counted as edges. -/
lemma countP_outgoing {e : EdgeLists} {links brought : List Link} {u v : NodeId} {group : Group}
    (h : e.links.Perm (brought ++ links.filter (fun l => l.nearEnd .outgoing = u))) :
    e.all.countP (fun x => x.target = v ∧ x.group = group)
      = brought.countP (fun l => l.sink = v ∧ l.group = group)
        + links.countP (isFromTo u v group) := by
  calc e.all.countP (fun x => x.target = v ∧ x.group = group)
      = e.links.countP (fun l => l.sink = v ∧ l.group = group) :=
        e.countP_all (fun l => l.sink = v ∧ l.group = group)
    _ = _ := by
        rw [h.countP_eq, List.countP_append, List.countP_filter]
        congr 1
        refine List.countP_congr fun l _ => ?_
        rw [Bool.and_eq_true, isFromTo, decide_eq_true_eq, decide_eq_true_eq, decide_eq_true_eq,
          show l.nearEnd .outgoing = l.source from rfl]
        tauto

/-- The incoming entries from a node, counted as edges. -/
lemma countP_incoming {e : EdgeLists} {links brought : List Link} {u v : NodeId} {group : Group}
    (h : e.links.Perm (brought ++ links.filter (fun l => l.nearEnd .incoming = v))) :
    e.all.countP (fun x => x.source = u ∧ x.group = group)
      = brought.countP (fun l => l.source = u ∧ l.group = group)
        + links.countP (isFromTo u v group) := by
  calc e.all.countP (fun x => x.source = u ∧ x.group = group)
      = e.links.countP (fun l => l.source = u ∧ l.group = group) :=
        e.countP_all (fun l => l.source = u ∧ l.group = group)
    _ = _ := by
        rw [h.countP_eq, List.countP_append, List.countP_filter]
        congr 1
        refine List.countP_congr fun l _ => ?_
        rw [Bool.and_eq_true, isFromTo, decide_eq_true_eq, decide_eq_true_eq, decide_eq_true_eq,
          show l.nearEnd .incoming = l.sink from rfl]
        tauto

/-- A node that was there before, or any node if none brings entries, has the edges it had and those
joined at it. -/
lemma links_run_perm {s : Store} {changes : List Change} {id : NodeId} {d : Direction} {n : Node}
    (h : s.hasNode id ∨ ∀ n, .add n ∈ changes → n.edges d = {})
    (hn : (s.run changes).node? id = some n) :
    (n.edges d).links.Perm
      ((s.listsAt id d).links ++ (s.joined changes).filter (fun l => l.nearEnd d = id)) := by
  rw [← listsAt_of_node? hn, listsAt_run s changes id d h]
  exact EdgeLists.links_recordAll_perm _ _

/-! ### Changes that add bare nodes -/

/-- Every entry stands for an edge of the log with its near end at the node. -/
lemma mem_joined_of_mem_all {changes : List Change} (hbare : ∀ n, .add n ∈ changes → n.IsBare)
    {id : NodeId} {d : Direction} {n : Node} (hn : (run {} changes).node? id = some n) {e : Edge}
    (he : e ∈ (n.edges d).all) : e.link.nearEnd d = id ∧ e.link ∈ joined {} changes := by
  have hperm := links_run_perm (.inr fun m hm => (hbare m hm).edges_eq d) hn
  have hmem : e.link ∈ (n.edges d).links := List.mem_map_of_mem he
  have hlog := hperm.mem_iff.1 hmem
  rw [listsAt_empty] at hlog
  obtain ⟨hjoined, hend⟩ := List.mem_filter.1 ((List.nil_append _) ▸ hlog)
  exact ⟨by simpa using hend, hjoined⟩

/-- Changes that add bare nodes make a whole store. -/
lemma whole_run (changes : List Change) (hbare : ∀ n, .add n ∈ changes → n.IsBare) :
    (run {} changes).Whole where
  outgoing u n e hn he := by
    obtain ⟨hend, hjoined⟩ := mem_joined_of_mem_all (d := .outgoing) hbare hn he
    exact ⟨hend, hasNode_of_mem_joined hjoined .incoming⟩
  incoming u n e hn he := by
    obtain ⟨hend, hjoined⟩ := mem_joined_of_mem_all (d := .incoming) hbare hn he
    exact ⟨hend, hasNode_of_mem_joined hjoined .outgoing⟩
  balanced u v m n group hm hn := by
    have hout := links_run_perm (d := .outgoing) (.inr fun k hk => (hbare k hk).edges_eq _) hm
    have hin := links_run_perm (d := .incoming) (.inr fun k hk => (hbare k hk).edges_eq _) hn
    exact (countP_outgoing hout).trans (countP_incoming hin).symm
  counted := by
    have hlog := holdsLog_run changes hbare
    rw [hlog.edgeCount_eq, hlog.degreeSum_eq]

/-! ### Changes that make a whole store -/

/-- In a whole store the edges counted leave no room for an outgoing entry that was brought. -/
lemma outgoing_eq_of_whole {changes : List Change} (h : (run {} changes).Whole) {n : Node}
    (hn : .add n ∈ changes) : n.outgoing = {} := by
  have hcounted := h.counted
  rw [edgeCount_run, degreeSum_run] at hcounted
  have hempty : ({} : Store).edgeCount = 0 ∧ ({} : Store).degreeSum .outgoing = 0 := ⟨rfl, rfl⟩
  have hsum : (changes.map (Change.brought .outgoing)).sum = 0 := by omega
  have hbrought : n.outgoing.degree = 0 :=
    List.sum_eq_zero_iff.1 hsum _ (List.mem_map.2 ⟨.add n, hn, rfl⟩)
  rw [EdgeLists.degree_eq_length_all] at hbrought
  exact EdgeLists.eq_empty_of_all_eq_nil (List.eq_nil_of_length_eq_zero hbrought)

/-- In a whole store no incoming entry was brought: the node at its source, which brought none,
would have to have one outgoing entry more than were joined. -/
lemma incoming_eq_of_whole {changes : List Change} (h : (run {} changes).Whole) {n : Node}
    (hn : .add n ∈ changes) : n.incoming = {} := by
  refine EdgeLists.eq_empty_of_all_eq_nil (List.eq_nil_iff_forall_not_mem.2 fun e he => ?_)
  have hout : ∀ m, .add m ∈ changes → m.edges .outgoing = {} :=
    fun m hm => outgoing_eq_of_whole h hm
  obtain ⟨before, rest, rfl⟩ := List.mem_iff_append.1 hn
  -- the node is added to `t` under the name `id`
  set t := run {} before with ht
  set id : NodeId := ⟨t.size⟩ with hid
  have hrun : run {} (before ++ .add n :: rest) = (t.add n).1.run rest := by
    rw [run_append, run_cons]
    rfl
  have hlog : joined {} (before ++ .add n :: rest)
      = joined {} before ++ (t.add n).1.joined rest := by
    rw [joined_append, joined_cons]
    rfl
  have hnode : (t.add n).1.hasNode id := by
    rw [hasNode_iff, size_add]
    exact Nat.lt_succ_self _
  have hlists : (t.add n).1.listsAt id .incoming = n.incoming := by
    rw [listsAt, node?_add, if_pos rfl]
    rfl
  obtain ⟨m, hm⟩ := (hasNode_iff_node? _ _).1 (hasNode_run hnode rest)
  have hin : m.incoming.links.Perm _ := links_run_perm (d := .incoming) (.inl hnode) hm
  rw [hlists] at hin
  rw [← hrun] at hm
  -- the entry is still there, so it leads to `id` from a node `k`
  have hmem : e.link ∈ m.incoming.links :=
    hin.mem_iff.2 (List.mem_append_left _ (List.mem_map_of_mem he))
  obtain ⟨e', he', hlink⟩ := List.mem_map.1 hmem
  obtain ⟨-, hsource⟩ := h.incoming id m e' hm he'
  have hsame : e'.source = e.source := congrArg Link.source hlink
  rw [hsame] at hsource
  obtain ⟨k, hk⟩ := (hasNode_iff_node? _ _).1 hsource
  have hkout : k.outgoing.links.Perm _ := links_run_perm (d := .outgoing) (.inr hout) hk
  rw [listsAt_empty, hlog] at hkout
  -- no edge of the log before `id` was there leads to it
  have hnone : (joined {} before).countP (isFromTo e.source id e.group) = 0 := by
    refine List.countP_eq_zero.2 fun l hl hfrom => ?_
    have hsink : l.sink = id := by
      simp only [isFromTo, decide_eq_true_eq] at hfrom
      exact hfrom.2.1
    have hbefore := (hasNode_iff _ _).1 (hasNode_of_mem_joined hl .incoming)
    rw [Link.nearEnd, hsink] at hbefore
    exact Nat.lt_irrefl _ hbefore
  have hbalanced := h.balanced e.source id k m e.group hk hm
  rw [countP_outgoing hkout, countP_incoming hin, List.countP_append, hnone] at hbalanced
  have hpos : 0 < n.incoming.links.countP (fun l => l.source = e.source ∧ l.group = e.group) :=
    List.countP_pos_iff.2 ⟨e.link, List.mem_map_of_mem he, by simp [Edge.link]⟩
  have hzero : (({} : EdgeLists).links).countP (fun l => l.sink = id ∧ l.group = e.group) = 0 := rfl
  omega

/-- **A store is whole exactly if all nodes added to it were bare.** The name of a node, its kind
and its properties do not matter, and neither does the order of the changes or which of them are
refused. -/
theorem whole_iff (changes : List Change) :
    (run {} changes).Whole ↔ ∀ n, .add n ∈ changes → n.IsBare :=
  ⟨fun h _ hn => ⟨outgoing_eq_of_whole h hn, incoming_eq_of_whole h hn⟩, whole_run changes⟩

/-- A copy of a function with a parameter, added to the same store, keeps the outgoing entry of the
function. -/
theorem copy_not_whole :
    ∃ n, (run {} [.add { kind := .functionDeclaration }, .add { kind := .paramVariableDeclaration },
        .addParameter ⟨0⟩ ⟨1⟩]).node? ⟨0⟩ = some n
      ∧ ¬ (run {} [.add { kind := .functionDeclaration },
        .add { kind := .paramVariableDeclaration }, .addParameter ⟨0⟩ ⟨1⟩, .add n]).Whole := by
  refine ⟨_, rfl, fun h => ?_⟩
  have hentry := (h.outgoing ⟨2⟩ _ ⟨⟨0⟩, ⟨1⟩, parameters, 0⟩ rfl (by decide)).1
  exact absurd hentry (by decide)

end Store
end CodeGraph
