import CodeGraph.Edge
import Mathlib.Tactic

/-!
The edge lists of a node, group by group.

* `eraseDups_concat`, `eraseDups_of_nodup`: first occurrences, with a member more at the end, and
  without repetitions.
* `EdgeLists.ofGroup_record`, `EdgeLists.groups_record`: an entry more ends the list of its group
  and leaves all others; a new group comes last.
* `EdgeLists.all_eq_flatMap`: all entries are the entries of the groups, group after group.
* `EdgeLists.all_subset_all_record`: recording an edge takes no entry away.
* `EdgeLists.mem_inGroup`, `EdgeLists.mem_selectAny`: the entries of some names are those whose
  group is alike to one of them.
-/

namespace CodeGraph

/-- A member at the end counts as a first occurrence if it did not occur before. -/
lemma eraseDups_concat {α : Type} [DecidableEq α] (xs : List α) (x : α) :
    (xs ++ [x]).eraseDups = if x ∈ xs then xs.eraseDups else xs.eraseDups ++ [x] := by
  rw [List.eraseDups_append]
  by_cases h : x ∈ xs <;> simp [List.removeAll, h, List.eraseDups_cons]

/-- A list without repetitions is the list of its first occurrences. -/
lemma eraseDups_of_nodup {α : Type} [DecidableEq α] {xs : List α} (h : xs.Nodup) :
    xs.eraseDups = xs := by
  induction xs using List.reverseRecOn with
  | nil => rfl
  | append_singleton xs x ih =>
      obtain ⟨hxs, -, hdisjoint⟩ := List.nodup_append'.1 h
      rw [eraseDups_concat, if_neg fun hx => hdisjoint hx List.mem_cons_self, ih hxs]

namespace EdgeLists

/-! ### The list of a group -/

/-- The entries of a group among lists. -/
private def entriesIn (group : Group) (lists : List (Group × Array Edge)) : List Edge :=
  match lists.find? (fun l => l.1 = group) with
  | some l => l.2.toList
  | none => []

private lemma entriesIn_cons (group : Group) (l : Group × Array Edge)
    (rest : List (Group × Array Edge)) :
    entriesIn group (l :: rest) = if l.1 = group then l.2.toList else entriesIn group rest := by
  by_cases h : l.1 = group <;> simp [entriesIn, h]

private lemma entriesIn_recordIn (source target : NodeId) (group other : Group)
    (lists : List (Group × Array Edge)) :
    entriesIn other (recordIn source target group lists)
      = if other = group
        then entriesIn group lists ++ [⟨source, target, group, (entriesIn group lists).length⟩]
        else entriesIn other lists := by
  induction lists with
  | nil =>
      by_cases h : other = group
      · simp [recordIn, entriesIn, h]
      · simp [recordIn, entriesIn, h, Ne.symm h]
  | cons l rest ih =>
      obtain ⟨g, entries⟩ := l
      by_cases hg : g = group
      · subst hg
        by_cases h : other = g
        · simp [recordIn, entriesIn_cons, h]
        · simp [recordIn, entriesIn_cons, h, Ne.symm h]
      · by_cases h : g = other
        · subst h
          simp [recordIn, entriesIn_cons, hg]
        · simp [recordIn, entriesIn_cons, hg, h, ih]

/-- Recording an edge ends the list of its group and leaves the lists of all others. -/
lemma ofGroup_record (e : EdgeLists) (source target : NodeId) (group other : Group) :
    (e.record source target group).ofGroup other
      = if other = group
        then e.ofGroup group ++ [⟨source, target, group, (e.ofGroup group).length⟩]
        else e.ofGroup other :=
  entriesIn_recordIn source target group other e.lists

/-- A group keeps its place when an edge is recorded in it; a new group comes last. -/
lemma groups_record (e : EdgeLists) (source target : NodeId) (group : Group) :
    (e.record source target group).groups
      = if group ∈ e.groups then e.groups else e.groups ++ [group] :=
  groups_recordIn source target group e.lists

/-- A list is the list of its group. -/
lemma ofGroup_of_mem {e : EdgeLists} {l : Group × Array Edge} (hl : l ∈ e.lists) :
    e.ofGroup l.1 = l.2.toList := by
  have key : ∀ lists : List (Group × Array Edge), (lists.map Prod.fst).Nodup → l ∈ lists →
      entriesIn l.1 lists = l.2.toList := by
    intro lists
    induction lists with
    | nil => simp
    | cons first rest ih =>
        intro hnodup hmem
        obtain ⟨hfirst, hrest⟩ := List.nodup_cons.1 hnodup
        rw [entriesIn_cons]
        rcases List.mem_cons.1 hmem with rfl | hmem
        · simp
        · have hne : first.1 ≠ l.1 := fun heq => hfirst (heq ▸ List.mem_map_of_mem hmem)
          rw [if_neg hne]
          exact ih hrest hmem
  exact key e.lists e.distinct hl

/-- **All entries**, group after group. -/
lemma all_eq_flatMap (e : EdgeLists) : e.all = e.groups.flatMap e.ofGroup := by
  rw [groups, List.flatMap_map]
  exact List.flatMap_congr fun l hl => (ofGroup_of_mem hl).symm

/-- The entries that were there stay when an edge is recorded. -/
lemma all_subset_all_record (e : EdgeLists) (source target : NodeId) (group : Group) :
    e.all ⊆ (e.record source target group).all := by
  intro x hx
  rw [all_eq_flatMap, List.mem_flatMap] at hx ⊢
  obtain ⟨g, hg, hx⟩ := hx
  refine ⟨g, ?_, ?_⟩
  · rw [groups_record]
    split
    · exact hg
    · exact List.mem_append_left _ hg
  · rw [ofGroup_record]
    split
    · rename_i heq
      exact List.mem_append_left _ (heq ▸ hx)
    · exact hx

/-! ### Entries by the name of their group -/

/-- The entries of a name are those whose group is alike to it. -/
lemma mem_inGroup {e : EdgeLists} {x : Edge} {name : Group} :
    x ∈ e.inGroup name ↔ x ∈ e.all ∧ x.group.alike name := by
  constructor
  · intro hx
    obtain ⟨l, hl, hxl⟩ := List.mem_flatMap.1 hx
    obtain ⟨hmem, halike⟩ := List.mem_filter.1 hl
    rw [(e.inOrder l hmem).group x hxl]
    exact ⟨List.mem_flatMap.2 ⟨l, hmem, hxl⟩, halike⟩
  · rintro ⟨hx, halike⟩
    obtain ⟨l, hl, hxl⟩ := List.mem_flatMap.1 hx
    rw [(e.inOrder l hl).group x hxl] at halike
    exact List.mem_flatMap.2 ⟨l, List.mem_filter.2 ⟨hl, halike⟩, hxl⟩

/-- The entries of some names are those whose group is alike to one of them; without a name, all. -/
lemma mem_selectAny {e : EdgeLists} {x : Edge} {names : List Group} :
    x ∈ e.selectAny names ↔ x ∈ e.all ∧ (names = [] ∨ ∃ name ∈ names, x.group.alike name) := by
  cases names with
  | nil => simp [selectAny]
  | cons name rest =>
      simp only [selectAny, List.mem_flatMap, mem_inGroup, reduceCtorEq, false_or]
      exact ⟨fun ⟨g, hg, hx, ha⟩ => ⟨hx, g, hg, ha⟩, fun ⟨hx, g, hg, ha⟩ => ⟨g, hg, hx, ha⟩⟩

/-- Lists without an entry are no lists. -/
lemma eq_empty_of_all_eq_nil {e : EdgeLists} (h : e.all = []) : e = {} := by
  obtain ⟨lists, distinct, inOrder⟩ := e
  cases lists with
  | nil => rfl
  | cons l rest =>
      have hl := List.flatMap_eq_nil_iff.1 h l List.mem_cons_self
      exact absurd hl (inOrder l List.mem_cons_self).ne_nil

end EdgeLists
end CodeGraph
