import CodeGraph.Match.Candidates
import Mathlib.Tactic

/-!
What the value of an expression depends on.

* `Expr.mem_vars_binary`, `Expr.mem_vars_unary`: the variables of an expression, operator by
  operator.
* `Expr.value_congr`, `Expr.holds_congr`: lookups that agree on the variables of an expression give
  it the same value and the same truth.
* `Expr.keys`, `Expr.value_congr_store`, `Expr.holds_congr_store`: so do stores in which the nodes
  that are found have the same properties under the keys of the expression.
* `Expr.evaluation_determined`: both at once, and why an expression without variables may be decided
  before there is a row and one over a single variable before there is a whole one.
-/

namespace CodeGraph

/-- No property, and no node, is read as null. -/
lemma Value.propertyOf_node (s : Store) (id : NodeId) (key : String) :
    (Value.node id).propertyOf s key = .ofProperty ((s.property? id key).getD .null) := by
  rw [propertyOf]
  cases s.property? id key <;> rfl

namespace Expr

/-! ### Variables -/

lemma mem_noteName {x name : String} {names : List String} :
    x ∈ noteName names name ↔ x ∈ names ∨ x = name := by
  by_cases h : name ∈ names
  · simp only [noteName, h, if_true]
    exact ⟨.inl, fun hx => hx.elim id fun hx => hx ▸ h⟩
  · simp [noteName, h]

mutual

/-- The names collected are those met before and the variables of the expression. -/
theorem mem_collect {x : String} (names : List String) :
    ∀ e : Expr, x ∈ collect names e ↔ x ∈ names ∨ x ∈ collect [] e
  | property name key => by simp [collect, mem_noteName]
  | literal value => by simp [collect]
  | var name => by simp [collect, mem_noteName]
  | binary op left right => by
      rw [collect, mem_collect _ right, mem_collect names left, collect,
        mem_collect (collect [] left) right, or_assoc]
  | unary op operand => by rw [collect, mem_collect names operand, collect]
  | call function arguments => by rw [collect, mem_collectAll names arguments, collect]

theorem mem_collectAll {x : String} (names : List String) :
    ∀ es : List Expr, x ∈ collectAll names es ↔ x ∈ names ∨ x ∈ collectAll [] es
  | [] => by simp [collectAll]
  | e :: rest => by
      rw [collectAll, mem_collectAll _ rest, mem_collect names e, collectAll,
        mem_collectAll (collect [] e) rest, or_assoc]

end

lemma nodup_noteName {names : List String} (h : names.Nodup) (name : String) :
    (noteName names name).Nodup := by
  rw [noteName]
  split
  · exact h
  · rename_i hnew
    rw [← List.concat_eq_append]
    exact List.Nodup.concat hnew h

mutual

/-- Names are collected once. -/
theorem nodup_collect {names : List String} (h : names.Nodup) : ∀ e : Expr, (collect names e).Nodup
  | property name _ => nodup_noteName h name
  | literal _ => h
  | var name => nodup_noteName h name
  | binary _ left right => nodup_collect (nodup_collect h left) right
  | unary _ operand => nodup_collect h operand
  | call _ arguments => nodup_collectAll h arguments

theorem nodup_collectAll {names : List String} (h : names.Nodup) :
    ∀ es : List Expr, (collectAll names es).Nodup
  | [] => h
  | e :: rest => nodup_collectAll (nodup_collect h e) rest

end

lemma nodup_vars (e : Expr) : e.vars.Nodup := nodup_collect List.nodup_nil e

lemma mem_vars_binary {x : String} {op : BinaryOp} {left right : Expr} :
    x ∈ (binary op left right).vars ↔ x ∈ left.vars ∨ x ∈ right.vars :=
  mem_collect left.vars right

lemma mem_vars_unary {x : String} {op : UnaryOp} {operand : Expr} :
    x ∈ (unary op operand).vars ↔ x ∈ operand.vars := Iff.rfl

lemma mem_vars_call {x : String} {function : String} {arguments : List Expr} :
    x ∈ (call function arguments).vars ↔ ∃ e ∈ arguments, x ∈ e.vars := by
  change x ∈ collectAll [] arguments ↔ _
  induction arguments with
  | nil => simp [collectAll]
  | cons e rest ih => rw [collectAll, mem_collectAll, ih, List.exists_mem_cons_iff, vars]

/-! ### Lookups that agree -/

/-- **The value of an expression depends on its variables only.** -/
theorem value_congr {s : Store} {f g : Lookup} :
    ∀ e : Expr, (∀ x ∈ e.vars, f x = g x) → e.value s f = e.value s g
  | property name key, h => by rw [value, value, h name (by simp [vars, collect, noteName])]
  | literal p, _ => rfl
  | var name, h => by rw [value, value, h name (by simp [vars, collect, noteName])]
  | binary op left right, h => by
      have hleft : left.value s f = left.value s g :=
        value_congr left fun x hx => h x (mem_vars_binary.2 (.inl hx))
      have hright : right.value s f = right.value s g :=
        value_congr right fun x hx => h x (mem_vars_binary.2 (.inr hx))
      cases op <;> rw [value, value, hleft, hright]
  | unary op operand, h => by
      have hoperand : operand.value s f = operand.value s g :=
        value_congr operand fun x hx => h x (mem_vars_unary.2 hx)
      cases op <;> rw [value, value, hoperand]
  | call _ _, _ => rfl

/-- A filter asks for its own variables only. -/
lemma holds_congr {s : Store} {f g : Lookup} {e : Expr} (h : ∀ x ∈ e.vars, f x = g x) :
    e.holds s f = e.holds s g :=
  congrArg Value.isTrue (value_congr e h)

/-! ### Stores that agree -/

/-- The keys under which an expression reads properties. A call is not run and reads none. -/
def keys : Expr → List String
  | property _ key => [key]
  | literal _ => []
  | var _ => []
  | binary _ left right => left.keys ++ right.keys
  | unary _ operand => operand.keys
  | call _ _ => []

/-- **The value of an expression depends on the properties that it reads only**: those under its
keys, of the nodes that its variables are bound to. -/
theorem value_congr_store {s t : Store} {f : Lookup} : ∀ e : Expr,
    (∀ x ∈ e.vars, ∀ id ∈ f x, ∀ key ∈ e.keys,
      (Value.node id).propertyOf s key = (Value.node id).propertyOf t key) →
        e.value s f = e.value t f
  | property name key, h => by
      rw [value, value]
      cases hid : f name with
      | none => rfl
      | some id => exact h name (by simp [vars, collect, noteName]) id hid key (by simp [keys])
  | literal _, _ => rfl
  | var _, _ => rfl
  | binary op left right, h => by
      have hleft : left.value s f = left.value t f :=
        value_congr_store left fun x hx id hid key hkey =>
          h x (mem_vars_binary.2 (.inl hx)) id hid key (List.mem_append_left _ hkey)
      have hright : right.value s f = right.value t f :=
        value_congr_store right fun x hx id hid key hkey =>
          h x (mem_vars_binary.2 (.inr hx)) id hid key (List.mem_append_right _ hkey)
      cases op <;> rw [value, value, hleft, hright]
  | unary op operand, h => by
      have hoperand : operand.value s f = operand.value t f :=
        value_congr_store operand fun x hx id hid key hkey =>
          h x (mem_vars_unary.2 hx) id hid key hkey
      cases op <;> rw [value, value, hoperand]
  | call _ _, _ => rfl

/-- A filter asks for its own keys only, at the nodes of its variables. -/
lemma holds_congr_store {s t : Store} {f : Lookup} {e : Expr}
    (h : ∀ x ∈ e.vars, ∀ id ∈ f x, ∀ key ∈ e.keys,
      (Value.node id).propertyOf s key = (Value.node id).propertyOf t key) :
    e.holds s f = e.holds t f :=
  congrArg Value.isTrue (value_congr_store e h)

/-! ### What evaluation depends on -/

/-- Lookups that agree on the variables of an expression and stores in which the nodes that are
found have the same values under its keys, where none is as good as null, give it the same value. -/
lemma value_eq_value {s t : Store} {f g : Lookup} {e : Expr} (hlookup : ∀ x ∈ e.vars, f x = g x)
    (hstore : ∀ x ∈ e.vars, ∀ id ∈ f x, ∀ key ∈ e.keys,
      (s.property? id key).getD .null = (t.property? id key).getD .null) : e.value s f
        = e.value t g := by
  have hread : e.value s f = e.value t f := value_congr_store e fun x hx id hid key hkey => by
    rw [Value.propertyOf_node, Value.propertyOf_node, hstore x hx id hid key hkey]
  exact hread.trans (value_congr e hlookup)

/-- **Evaluation reads the variables and the keys of an expression, and nothing else**, calls and
their arguments included. Lookups that agree on its variables and stores in which the nodes that are
found have the same values under its keys, where none is as good as null, give it the same value and
the same truth. So an expression without variables has the truth that is decided without a row on
every row and in every store, and an expression over a single variable has on every row the value
and the truth that it has where this variable alone is bound. -/
theorem evaluation_determined (e : Expr) :
    (∀ (s t : Store) (f g : Lookup), (∀ x ∈ e.vars, f x = g x) →
      (∀ x ∈ e.vars, ∀ id ∈ f x, ∀ key ∈ e.keys,
        (s.property? id key).getD .null = (t.property? id key).getD .null) →
      e.value s f = e.value t g ∧ e.holds s f = e.holds t g)
    ∧ (e.isConstant → ∀ (s t : Store) (f : Lookup), e.holdsConstantly s = e.holds t f)
    ∧ ∀ x, e.vars = [x] → ∀ (s : Store) (f : Lookup) (id : NodeId), f x = some id →
      e.value s (lookupOne x id) = e.value s f ∧ e.holds s (lookupOne x id) = e.holds s f := by
  have hall : ∀ (s t : Store) (f g : Lookup), (∀ x ∈ e.vars, f x = g x) →
      (∀ x ∈ e.vars, ∀ id ∈ f x, ∀ key ∈ e.keys,
        (s.property? id key).getD .null = (t.property? id key).getD .null) →
      e.value s f = e.value t g ∧ e.holds s f = e.holds t g := fun s t f g hlookup hstore =>
    have hvalue := value_eq_value hlookup hstore
    ⟨hvalue, congrArg Value.isTrue hvalue⟩
  refine ⟨hall, fun hconstant s t f => ?_, fun x hx s f id hid => ?_⟩
  · -- there is no variable on which lookups could differ, and so no node to read from
    have hvars : e.vars = [] := List.isEmpty_iff.1 hconstant
    have hnone : ∀ (P : String → Prop), ∀ x ∈ e.vars, P x := fun P => hvars ▸ List.forall_mem_nil P
    exact (hall s t (fun _ => none) f (hnone _) (hnone _)).2
  · refine hall s s (lookupOne x id) f (fun y hy => ?_) fun _ _ _ _ _ _ => rfl
    obtain rfl : y = x := List.mem_singleton.1 (hx ▸ hy)
    rw [lookupOne, if_pos rfl, hid]

/-- A note that is missing in one store and null in the other, and a line that only the argument of
a call asks for. -/
theorem evaluation_determined_of_note :
    let s := (({} : Store).add { kind := .functionDeclaration }).1
    let t := (({} : Store).add
      { kind := .functionDeclaration,
        properties := .ofList [("note", .null), ("line", .ofInt 7)] }).1
    let f : Lookup := fun x => if x = "f" then some ⟨0⟩ else none
    let g : Lookup := fun x => if x = "f" then some ⟨0⟩ else some ⟨5⟩
    let e : Expr := .and (.unary .isNull (.call "size" [.property "f" "line"]))
      (.unary .isNull (.property "f" "note"))
    let e' : Expr := .unary .isNull (.call "size" [])
    e.vars = ["f"] ∧ e.keys = ["note"] ∧ e.value s f = e.value t g ∧ e.holds s f = e.holds t g
      ∧ e.holds s (lookupOne "f" ⟨0⟩) = e.holds s g ∧ e'.isConstant
      ∧ e'.holdsConstantly s = e'.holds t g := by
  intro s t f g e e'
  have hlookup : ∀ x ∈ e.vars, f x = g x := by decide +kernel
  have hstore : ∀ x ∈ e.vars, ∀ id ∈ f x, ∀ key ∈ e.keys,
      (s.property? id key).getD .null = (t.property? id key).getD .null := by decide +kernel
  obtain ⟨hvalue, hholds⟩ := (evaluation_determined e).1 s t f g hlookup hstore
  have hconstant : e'.isConstant := by decide
  exact ⟨rfl, rfl, hvalue, hholds, ((evaluation_determined e).2.2 "f" rfl s g ⟨0⟩ rfl).2, hconstant,
    (evaluation_determined e').2.1 hconstant s t g⟩

end Expr
end CodeGraph
