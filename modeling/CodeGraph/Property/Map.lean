import CodeGraph.Property

/-!
Property maps: from keys to properties, at most one for each key.

The entries stand in the order of their keys, so two maps with the same properties are the same map.

* `PropertyMap.insert`, `PropertyMap.get?`: setting and reading a key.
* `PropertyMap.get?_insert`: a map read after setting a key.
* `PropertyMap.get?_ofList`: a map read after setting the keys of a list.
-/

namespace CodeGraph

theorem PropertyMap.sorted_nil : ([] : List (String × Property)).Pairwise (fun a b => a.1 < b.1) :=
  List.Pairwise.nil

/-- A map from keys to properties, its entries in the order of their keys. -/
structure PropertyMap where
  entries : List (String × Property) := []
  sorted : entries.Pairwise (fun a b => a.1 < b.1) := by exact PropertyMap.sorted_nil
deriving DecidableEq, Repr

namespace PropertyMap

instance : Inhabited PropertyMap := ⟨{}⟩

def size (m : PropertyMap) : Nat := m.entries.length

def isEmpty (m : PropertyMap) : Bool := m.entries.isEmpty

/-! ### Reading -/

/-- The property of `key` in a list of entries. -/
def lookup (key : String) : List (String × Property) → Option Property
  | [] => none
  | (k, v) :: rest => if k = key then some v else lookup key rest

def get? (m : PropertyMap) (key : String) : Option Property := lookup key m.entries

def contains (m : PropertyMap) (key : String) : Bool := (m.get? key).isSome

/-! ### Setting -/

/-- Puts a property at its place among ordered entries, over any earlier one of the key. -/
def place (key : String) (value : Property) : List (String × Property) → List (String × Property)
  | [] => [(key, value)]
  | (k, v) :: rest =>
    if key < k then (key, value) :: (k, v) :: rest
    else if key = k then (key, value) :: rest
    else (k, v) :: place key value rest

theorem mem_place {key : String} {value : Property} {entries : List (String × Property)}
    {e : String × Property} (h : e ∈ place key value entries) : e = (key, value) ∨ e ∈ entries := by
  induction entries with
  | nil => simpa [place] using h
  | cons head rest ih =>
    obtain ⟨k, v⟩ := head
    rw [place] at h
    split at h
    · simpa using h
    · split at h
      · rcases List.mem_cons.1 h with h | h
        · exact .inl h
        · exact .inr (List.mem_cons_of_mem _ h)
      · rcases List.mem_cons.1 h with h | h
        · exact .inr (h ▸ List.mem_cons_self)
        · exact (ih h).imp id (List.mem_cons_of_mem _)

theorem sorted_place (key : String) (value : Property) {entries : List (String × Property)}
    (h : entries.Pairwise (fun a b => a.1 < b.1)) :
    (place key value entries).Pairwise (fun a b => a.1 < b.1) := by
  induction entries with
  | nil => simp [place]
  | cons head rest ih =>
    obtain ⟨k, v⟩ := head
    have hk := List.pairwise_cons.1 h
    rw [place]
    split
    · rename_i hlt
      refine List.pairwise_cons.2 ⟨fun e he => ?_, h⟩
      rcases List.mem_cons.1 he with rfl | he
      · exact hlt
      · exact String.lt_trans hlt (hk.1 e he)
    · split
      · rename_i heq
        subst heq
        exact List.pairwise_cons.2 ⟨fun e he => hk.1 e he, hk.2⟩
      · rename_i hlt hne
        refine List.pairwise_cons.2 ⟨fun e he => ?_, ih hk.2⟩
        rcases mem_place he with rfl | he
        · refine Decidable.byContradiction fun hge => hne ?_
          exact String.le_antisymm (String.not_lt.1 hge) (String.not_lt.1 hlt)
        · exact hk.1 e he

/-- The map with `key` set to `value`. -/
def insert (m : PropertyMap) (key : String) (value : Property) : PropertyMap :=
  ⟨place key value m.entries, sorted_place key value m.sorted⟩

/-- The map of a list of settings, of which a later one of the same key wins. -/
def ofList (settings : List (String × Property)) : PropertyMap :=
  settings.foldl (fun m e => m.insert e.1 e.2) {}

/-! ### Reading after setting -/

theorem lookup_place (key other : String) (value : Property) (entries : List (String × Property)) :
    lookup other (place key value entries) = if other = key then some value
      else lookup other entries := by
  induction entries with
  | nil =>
    by_cases h : other = key
    · simp [place, lookup, h]
    · simp [place, lookup, h, Ne.symm h]
  | cons head rest ih =>
    obtain ⟨k, v⟩ := head
    rw [place]
    split
    · by_cases h : other = key
      · simp [lookup, h]
      · simp [lookup, h, Ne.symm h]
    · split
      · rename_i heq
        subst heq
        by_cases h : other = key
        · simp [lookup, h]
        · simp [lookup, h, Ne.symm h]
      · rename_i hne
        by_cases hk : k = other
        · subst hk
          simp [lookup, Ne.symm hne]
        · simp [lookup, hk, ih]

/-- Setting a key changes that key and no other. -/
@[simp] theorem get?_insert (m : PropertyMap) (key other : String) (value : Property) :
    (m.insert key value).get? other = if other = key then some value else m.get? other :=
  lookup_place key other value m.entries

@[simp] theorem get?_empty (key : String) : (({} : PropertyMap).get? key) = none := rfl

theorem lookup_append (key : String) (front back : List (String × Property)) :
    lookup key (front ++ back) = (lookup key front).or (lookup key back) := by
  induction front with
  | nil => rfl
  | cons head rest ih =>
    obtain ⟨k, v⟩ := head
    rw [List.cons_append, lookup, lookup, ih]
    split <;> rfl

theorem get?_foldl_insert (settings : List (String × Property)) (m : PropertyMap) (key : String) :
    (settings.foldl (fun m e => m.insert e.1 e.2) m).get? key
      = (lookup key settings.reverse).or (m.get? key) := by
  induction settings generalizing m with
  | nil => rfl
  | cons head rest ih =>
    obtain ⟨k, v⟩ := head
    rw [List.foldl_cons, ih, get?_insert, List.reverse_cons, lookup_append, Option.or_assoc, lookup,
      lookup]
    by_cases h : key = k
    · simp [h]
    · simp [h, Ne.symm h]

/-- Of several settings of a key the last one is read. -/
theorem get?_ofList (settings : List (String × Property)) (key : String) :
    (ofList settings).get? key = lookup key settings.reverse := by
  rw [ofList, get?_foldl_insert, get?_empty, Option.or_none]

end PropertyMap
end CodeGraph
