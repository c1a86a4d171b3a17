/-!
Edges of a code graph, as each node keeps them.

An edge is recorded at both of its ends: in the outgoing lists of its source and in the incoming
lists of its target. A node has one list per group and direction; the groups stand in the order of
their first use.

* `NodeId`, `Group`, `Direction`, `Edge`: the parts of an entry.
* `Group.alike`: groups are looked up without regard to the case of ASCII letters.
* `EdgeLists`: the lists of one node in one direction, one list in order for each group.
* `EdgeLists.record`: an entry more, at the end of the list of its group.
* `EdgeLists.inGroup`, `EdgeLists.all`: the entries of a group, of every group.
-/

namespace CodeGraph

/-! ### Names of nodes and groups -/

/-- The name of a node in its store: the place at which it was added. -/
structure NodeId where
  index : Nat
deriving DecidableEq, Repr, Inhabited

namespace NodeId

/-- The name of a node that is in no store, the greatest of the 64-bit names. -/
def unassigned : NodeId := ⟨Nat.pow 2 64 - 1⟩

def isAssigned (id : NodeId) : Bool := id != unassigned

def display (id : NodeId) : String := "NodeId(" ++ toString id.index ++ ")"

end NodeId

/-- The name of a group of edges, as it was first written. -/
structure Group where
  name : String
deriving DecidableEq, Repr, Inhabited

namespace Group

/-- Two names with the same letters, in whatever case, name one group of a query. -/
def folded (g : Group) : String := g.name.map Char.toLower

def alike (g other : Group) : Bool := g.folded == other.folded

end Group

/-! ### Directions and entries -/

/-- The side on which a node stands of an edge: it leaves the node or it arrives there. -/
inductive Direction
  | outgoing
  | incoming
deriving DecidableEq, Repr, Inhabited

namespace Direction

def reverse : Direction → Direction
  | outgoing => incoming
  | incoming => outgoing

def name : Direction → String
  | outgoing => "OUTGOING"
  | incoming => "INCOMING"

@[simp] theorem reverse_reverse (d : Direction) : d.reverse.reverse = d := by cases d <;> rfl

end Direction

/-- An entry of an edge list; `index` counts the entries before it in its list. -/
structure Edge where
  source : NodeId
  target : NodeId
  group : Group
  index : Nat
deriving DecidableEq, Repr

namespace Edge

/-- The node that an edge leads to when it is followed in a direction. -/
def farEnd (e : Edge) : Direction → NodeId
  | .outgoing => e.target
  | .incoming => e.source

def startsFrom (e : Edge) (id : NodeId) : Bool := e.source == id

def endsAt (e : Edge) (id : NodeId) : Bool := e.target == id

end Edge

/-! ### The lists of a node -/

/-- A list under a group is in order if it is not empty and its entries are of the group, each with
the number of the entries before it. -/
structure InOrder (l : Group × Array Edge) : Prop where
  ne_nil : l.2.toList ≠ []
  group : ∀ e ∈ l.2.toList, e.group = l.1
  index : ∀ (i : Nat) (e : Edge), l.2.toList[i]? = some e → e.index = i

theorem inOrder_nil : ∀ l ∈ ([] : List (Group × Array Edge)), InOrder l :=
  List.forall_mem_nil InOrder

/-- The edge lists of a node in one direction, one for each group in the order of first use. -/
structure EdgeLists where
  lists : List (Group × Array Edge) := []
  distinct : (lists.map Prod.fst).Nodup := by exact List.nodup_nil
  inOrder : ∀ l ∈ lists, InOrder l := by exact inOrder_nil
deriving DecidableEq, Repr

namespace EdgeLists

instance : Inhabited EdgeLists := ⟨{}⟩

/-- Puts an entry at the end of the list of its group, opening the list if there is none. -/
def recordIn (source target : NodeId) (group : Group) :
    List (Group × Array Edge) → List (Group × Array Edge)
  | [] => [(group, #[⟨source, target, group, 0⟩])]
  | (g, entries) :: rest =>
    if g = group then (g, entries.push ⟨source, target, group, entries.size⟩) :: rest
    else (g, entries) :: recordIn source target group rest

/-- A group keeps its place; a new one comes last. -/
theorem groups_recordIn (source target : NodeId) (group : Group)
    (lists : List (Group × Array Edge)) :
    (recordIn source target group lists).map Prod.fst
      = if group ∈ lists.map Prod.fst then lists.map Prod.fst
        else lists.map Prod.fst ++ [group] := by
  induction lists with
  | nil => simp [recordIn]
  | cons l rest ih =>
    obtain ⟨g, entries⟩ := l
    by_cases h : g = group
    · simp [recordIn, h]
    · simp only [recordIn, h, if_false, List.map_cons, ih, List.mem_cons, Ne.symm h, false_or]
      split <;> rfl

theorem distinct_recordIn (source target : NodeId) (group : Group)
    {lists : List (Group × Array Edge)}
    (h : (lists.map Prod.fst).Nodup) :
    ((recordIn source target group lists).map Prod.fst).Nodup := by
  rw [groups_recordIn]
  split
  · exact h
  · rename_i hnew
    refine List.nodup_append.2 ⟨h, by simp, fun a ha b hb => ?_⟩
    rintro rfl
    exact hnew (List.mem_singleton.1 hb ▸ ha)

/-- A list stays in order with an entry more that counts those before it. -/
theorem inOrder_push {group : Group} {entries : Array Edge} (h : InOrder (group, entries))
    (source target : NodeId) :
    InOrder (group, entries.push ⟨source, target, group, entries.size⟩) where
  ne_nil := by simp
  group e he := by
    rcases (by simpa using he : e ∈ entries ∨ _) with he | rfl
    · exact h.group e (by simpa using he)
    · rfl
  index i e he := by
    rw [Array.toList_push, List.getElem?_append] at he
    split at he
    · exact h.index i e he
    · rename_i hge
      rw [List.getElem?_singleton] at he
      split at he
      · cases he
        simp only [Array.length_toList] at *
        omega
      · simp at he

theorem inOrder_recordIn (source target : NodeId) (group : Group)
    {lists : List (Group × Array Edge)}
    (h : ∀ l ∈ lists, InOrder l) : ∀ l ∈ recordIn source target group lists, InOrder l := by
  induction lists with
  | nil =>
    intro l hl
    rw [List.mem_singleton.1 hl]
    refine ⟨by simp, by simp, fun i e he => ?_⟩
    obtain ⟨rfl, rfl⟩ := by simpa [List.getElem?_singleton] using he
    rfl
  | cons head rest ih =>
    obtain ⟨g, entries⟩ := head
    have hrest : ∀ l ∈ rest, InOrder l := fun l hl => h l (List.mem_cons_of_mem _ hl)
    have hhead : InOrder (g, entries) := h _ List.mem_cons_self
    intro l hl
    rw [recordIn] at hl
    split at hl
    · rename_i hg
      subst hg
      rcases List.mem_cons.1 hl with rfl | hl
      · exact inOrder_push hhead source target
      · exact hrest l hl
    · rcases List.mem_cons.1 hl with rfl | hl
      · exact hhead
      · exact ih hrest l hl

def record (e : EdgeLists) (source target : NodeId) (group : Group) : EdgeLists where
  lists := recordIn source target group e.lists
  distinct := distinct_recordIn source target group e.distinct
  inOrder := inOrder_recordIn source target group e.inOrder

def groups (e : EdgeLists) : List Group := e.lists.map Prod.fst

/-- All entries, list after list. -/
def all (e : EdgeLists) : List Edge := e.lists.flatMap (fun l => l.2.toList)

/-- The entries of the groups alike to a name. -/
def inGroup (e : EdgeLists) (name : Group) : List Edge :=
  (e.lists.filter (fun l => l.1.alike name)).flatMap (fun l => l.2.toList)

/-- The entries of one name, or of all groups. -/
def select (e : EdgeLists) : Option Group → List Edge
  | some name => e.inGroup name
  | none => e.all

/-- The entries of any of the names, name after name; without a name those of all groups. -/
def selectAny (e : EdgeLists) : List Group → List Edge
  | [] => e.all
  | names => names.flatMap e.inGroup

def degree (e : EdgeLists) : Nat := e.lists.foldr (fun l n => l.2.size + n) 0

/-- The entries of exactly one group. -/
def ofGroup (e : EdgeLists) (group : Group) : List Edge :=
  match e.lists.find? (fun l => l.1 = group) with
  | some l => l.2.toList
  | none => []

/-! ### Small facts -/

theorem foldr_sizes (lists : List (Group × Array Edge)) :
    lists.foldr (fun l n => l.2.size + n) 0 = (lists.flatMap (fun l => l.2.toList)).length := by
  induction lists with
  | nil => rfl
  | cons l rest ih =>
    rw [List.foldr_cons, ih, List.flatMap_cons, List.length_append]
    rfl

@[simp] theorem degree_eq_length_all (e : EdgeLists) : e.degree = e.all.length :=
  foldr_sizes e.lists

theorem foldr_sizes_recordIn (source target : NodeId) (group : Group)
    (lists : List (Group × Array Edge)) :
    (recordIn source target group lists).foldr (fun l n => l.2.size + n) 0
      = lists.foldr (fun l n => l.2.size + n) 0 + 1 := by
  induction lists with
  | nil => rfl
  | cons l rest ih =>
    obtain ⟨g, entries⟩ := l
    rw [recordIn]
    split
    · simp only [List.foldr_cons, Array.size_push]
      omega
    · simp only [List.foldr_cons, ih]
      omega

/-- Recording an edge adds one entry. -/
theorem degree_record (e : EdgeLists) (source target : NodeId) (group : Group) :
    (e.record source target group).degree = e.degree + 1 :=
  foldr_sizes_recordIn source target group e.lists

end EdgeLists
end CodeGraph
