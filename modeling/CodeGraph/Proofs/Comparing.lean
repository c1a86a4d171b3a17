import CodeGraph.Expr.Eval
import Mathlib.Tactic

/-!
Comparisons of operands.

Equality and order of properties are two functions with cases of their own, and being different asks
a third one for the class of both sides. Inside a class the three belong together: all six
comparisons can be read off the order, which turns around when its sides do, and which only a NaN
leaves out. Between classes, between a node and a property, and with null every comparison and every
test of texts fails.

* `PropertyClass`, `Property.class?`: the classes of properties that compare with each other.
* `Property.order?_swap`, `Property.equal?_eq_some_true_iff`, `Property.isSome_order?`: order and
  equality.
* `Comparison.decides`, `Property.compares_eq_decides`: the comparisons inside a class, read off the
  order.
* `Value.Apart`: operands of which no comparison holds.
* `Comparison.Consistent`, `Expr.comparisons_consistent`: what comparisons have to do with each
  other.
-/

namespace CodeGraph

/-! ### Doubles -/

namespace Double

variable {x y : Double}

lemma magnitude_ofParts (negative : Bool) (m : Nat) :
    (ofParts negative m).magnitude = m % Nat.pow 2 63 := by
  have hpow : Nat.pow 2 63 = 9223372036854775808 := rfl
  rw [magnitude, ofParts, UInt64.toNat_ofNat', hpow]
  cases negative
  · simp only [Bool.false_eq_true, if_false]
    omega
  · simp only [if_true]
    omega

/-- The double nearest to an integer is a number. -/
lemma isNaN_ofInt (i : Int) : (ofInt i).isNaN = false := by
  have hle : magnitudeOfRatio i.natAbs 1 ≤ infinityMagnitude := by
    rw [magnitudeOfRatio]
    split_ifs
    · exact Nat.zero_le _
    · exact Nat.min_le_right _ _
  rw [isNaN, ofInt, ofRatio, magnitude_ofParts]
  exact decide_eq_false (Nat.not_lt.2 ((Nat.mod_le _ _).trans hle))

lemma compare?_swap (x y : Double) : y.compare? x = (x.compare? y).map Ordering.swap := by
  rw [compare?, compare?, Bool.or_comm]
  split
  · rfl
  · rw [Option.map_some, Int.compare_swap]

lemma isSome_compare? (x y : Double) : (x.compare? y).isSome = !(x.isNaN || y.isNaN) := by
  rw [compare?]
  cases x.isNaN || y.isNaN <;> rfl

end Double

/-! ### Classes of properties -/

/-- The classes of properties that compare with each other. -/
inductive PropertyClass
  | string
  | number
  | boolean
deriving DecidableEq, Repr

namespace Property

variable {p q : Property} {c : PropertyClass}

/-- The class of a property; null has none. -/
def class? : Property → Option PropertyClass
  | string _ => some .string
  | integer _ | float _ => some .number
  | boolean _ => some .boolean
  | null => none

/-- Whether a property is the one number that is related to none. -/
def isNaN : Property → Bool
  | float x => x.isNaN
  | _ => false

/-- Two properties of one class are two texts, two truth values or two numbers of any types. -/
lemma class?_induction
    {P : (c : PropertyClass) → (p q : Property) → p.class? = some c → q.class? = some c → Prop}
    (string : ∀ l r, P .string (string l) (string r) rfl rfl)
    (integer : ∀ l r, P .number (integer l) (integer r) rfl rfl)
    (integer_float : ∀ l r, P .number (.integer l) (float r) rfl rfl)
    (float_integer : ∀ l r, P .number (float l) (.integer r) rfl rfl)
    (float : ∀ l r, P .number (.float l) (.float r) rfl rfl)
    (boolean : ∀ l r, P .boolean (boolean l) (boolean r) rfl rfl) (c : PropertyClass)
    (p q : Property)
    (hp : p.class? = some c) (hq : q.class? = some c) : P c p q hp hq := by
  cases p <;> cases hp <;> cases q <;> cases hq
  case string.refl.string.refl l r => exact string l r
  case integer.refl.integer.refl l r => exact integer l r
  case integer.refl.float.refl l r => exact integer_float l r
  case float.refl.integer.refl l r => exact float_integer l r
  case float.refl.float.refl l r => exact float l r
  case boolean.refl.boolean.refl l r => exact boolean l r

lemma sameClass_of_class? (hp : p.class? = some c) (hq : q.class? = some c) : p.sameClass q := by
  induction c, p, q, hp, hq using class?_induction <;> rfl

lemma sameClass_of_ne (h : p.class? ≠ q.class?) : p.sameClass q = false := by
  cases p <;> cases q <;> simp_all [class?, sameClass, number?]

/-! ### Order and equality -/

/-- The order turns around with its sides. -/
lemma order?_swap (p q : Property) : q.order? p = (p.order? q).map Ordering.swap := by
  cases p <;> cases q
  case integer.integer l r => simp [order?, Int.compare_swap]
  case string.string l r =>
    exact congrArg some (@Std.OrientedCmp.eq_swap _ (compare : String → String → _) _ _ _)
  case boolean.boolean l r =>
    exact congrArg some (@Std.OrientedCmp.eq_swap _ (compare : Nat → Nat → _) _ _ _)
  case integer.float l r => exact Double.compare?_swap _ _
  case float.integer l r => exact Double.compare?_swap _ _
  case float.float l r => exact Double.compare?_swap _ _
  all_goals rfl

/-- **Equality agrees with the order**, of properties of any classes. -/
lemma equal?_eq_some_true_iff (p q : Property) :
    p.equal? q = some true ↔ p.order? q = some .eq := by
  cases p <;> cases q
  case integer.integer l r => simp [equal?, order?, Int64.toInt_inj]
  case string.string l r =>
    have hcompare : compareOfLessAndEq l r = .eq ↔ l = r :=
      @Std.LawfulEqCmp.compare_eq_iff_eq _ (compare : String → String → _) _ _ _
    simp [equal?, order?, hcompare]
  case boolean.boolean l r => cases l <;> cases r <;> decide
  all_goals simp [equal?, order?, number?, Double.equal]

/-- Inside a class only a NaN is out of order. -/
lemma isSome_order? (hp : p.class? = some c) (hq : q.class? = some c) :
    (p.order? q).isSome = !(p.isNaN || q.isNaN) := by
  induction c, p, q, hp, hq using class?_induction with
  | string | integer | boolean => rfl
  | integer_float l r => simp [order?, number?, isNaN, Double.isSome_compare?, Double.isNaN_ofInt]
  | float_integer l r => simp [order?, number?, isNaN, Double.isSome_compare?, Double.isNaN_ofInt]
  | float l r => exact Double.isSome_compare? l r

/-- Between classes there is no order. -/
lemma order?_of_ne (h : p.class? ≠ q.class?) : p.order? q = none := by
  cases p <;> cases q <;> simp_all [class?, order?, number?]

/-- Inside a class it is known whether two properties are equal. -/
lemma equal?_of_class? (hp : p.class? = some c) (hq : q.class? = some c) :
    p.equal? q = some (p.order? q == some .eq) := by
  have hsome : ∃ b, p.equal? q = some b := by
    induction c, p, q, hp, hq using class?_induction <;> exact ⟨_, rfl⟩
  obtain ⟨b, hb⟩ := hsome
  have htrue := equal?_eq_some_true_iff p q
  rw [hb, Option.some_inj] at htrue
  rw [hb, Option.some_inj, Bool.eq_iff_iff, htrue, beq_iff_eq]

end Property

/-! ### Comparisons inside a class -/

/-- What a comparison answers if it is read off an order: without one, two values are different and
nothing else. -/
def Comparison.decides (op : Comparison) : Option Ordering → Bool
  | some o => op.admits o
  | none => op == .ne

/-- **All comparisons inside a class** are read off the order. -/
lemma Property.compares_eq_decides {p q : Property} {c : PropertyClass} (hp : p.class? = some c)
    (hq : q.class? = some c) (op : Comparison) : p.compares op q = op.decides (p.order? q) := by
  have hclass : p.sameClass q := sameClass_of_class? hp hq
  cases op
  case eq | ne =>
    simp only [compares, equal?_of_class? hp hq, hclass, Bool.true_and]
    cases p.order? q with
    | none => rfl
    | some o => cases o <;> rfl
  all_goals
    simp only [compares]
    cases p.order? q <;> rfl

/-- How the comparisons of two values belong together: `there` compares the first with the second,
`back` the second with the first, and `ordered` tells whether the two are in an order at all. -/
structure Comparison.Consistent (there back : Comparison → Bool) (ordered : Bool) : Prop where
  eq_symm : there .eq = back .eq
  ne_symm : there .ne = back .ne
  ne_eq_not : there .ne = !there .eq
  lt_swap : there .lt = back .gt
  gt_swap : there .gt = back .lt
  le_swap : there .le = back .ge
  ge_swap : there .ge = back .le
  le_eq : there .le = (there .lt || there .eq)
  ge_eq : there .ge = (there .gt || there .eq)
  not_lt_eq : (there .lt && there .eq) = false
  not_lt_gt : (there .lt && there .gt) = false
  not_eq_gt : (there .eq && there .gt) = false
  some_of_three : (there .lt || there .eq || there .gt) = ordered

/-- Comparisons that are read off an order, and off the same order turned around, belong together.
-/
lemma Comparison.consistent_decides (o : Option Ordering) :
    Consistent (fun op => op.decides o) (fun op => op.decides (o.map Ordering.swap)) o.isSome := by
  rcases o with _ | _ | _ | _ <;> constructor <;> rfl

/-! ### Operands that do not compare -/

/-- One of two values is null, one is a node and the other a property, or both are properties of
different classes. -/
inductive Value.Apart : Value → Value → Prop
  | null_left (v : Value) : Apart .null v
  | null_right (v : Value) : Apart v .null
  | node_property (id : NodeId) (p : Property) : Apart (.node id) (.property p)
  | property_node (p : Property) (id : NodeId) : Apart (.property p) (.node id)
  | classes {p q : Property} (h : p.class? ≠ q.class?) : Apart (.property p) (.property q)

namespace Value

variable {l r : Value}

/-- No comparison holds of values that are apart. -/
lemma Apart.compares (h : l.Apart r) (op : Comparison) : l.compares op r = false := by
  cases h with
  | null_left => cases r <;> rfl
  | null_right => cases l <;> rfl
  | node_property | property_node => rfl
  | @classes p q h =>
      have horder := Property.order?_of_ne h
      have hequal : p.equal? q ≠ some true := by simp [Property.equal?_eq_some_true_iff, horder]
      cases op
      case eq => exact beq_eq_false_iff_ne.2 hequal
      case ne => simp [Value.compares, Property.compares, Property.sameClass_of_ne h]
      all_goals simp [Value.compares, Property.compares, horder]

/-- No test of texts does either. -/
lemma Apart.tests (h : l.Apart r) (op : TextTest) : l.tests op r = false := by
  cases h with
  | null_left => rfl
  | null_right => rcases l with _ | (_ | _ | _ | _ | _) | _ <;> rfl
  | node_property | property_node => simp [Value.tests]
  | @classes p q h => cases p <;> cases q <;> first | rfl | exact absurd rfl h

end Value

/-! ### Comparisons in a row -/

/-- **Comparisons fail closed and agree with each other.** If an operand is null, or one is a node
and the other a property, or both are properties of different classes, then no comparison of the two
and no test of texts holds. The comparisons of two properties of one class belong together, and one
of less, equal and greater holds unless there is a NaN. Two properties of any classes are known to
be equal exactly if they are ordered as equal. -/
theorem Expr.comparisons_consistent (s : Store) (lookup : Lookup) (left right : Expr) :
    ((left.value s lookup).Apart (right.value s lookup) →
        (∀ op, (binary (.comparison op) left right).holds s lookup = false)
          ∧ ∀ op, (binary (.text op) left right).holds s lookup = false)
      ∧ (∀ p q c, left.value s lookup = .property p → right.value s lookup = .property q →
        p.class? = some c →
          q.class? = some c →
            Comparison.Consistent (fun op => (binary (.comparison op) left right).holds s lookup)
            (fun op => (binary (.comparison op) right left).holds s lookup) !(p.isNaN || q.isNaN))
      ∧ ∀ p q : Property, p.equal? q = some true ↔ p.order? q = some .eq := by
  refine ⟨fun h => ⟨fun op => h.compares op, fun op => h.tests op⟩, ?_,
    Property.equal?_eq_some_true_iff⟩
  intro p q c hl hr hp hq
  have hthere : ∀ op, (binary (.comparison op) left right).holds s lookup
      = op.decides (p.order? q) := by
    intro op
    rw [holds_comparison, hl, hr]
    exact Property.compares_eq_decides hp hq op
  have hback : ∀ op, (binary (.comparison op) right left).holds s lookup
      = op.decides ((p.order? q).map Ordering.swap) := by
    intro op
    rw [holds_comparison, hl, hr, ← Property.order?_swap]
    exact Property.compares_eq_decides hq hp op
  simp only [hthere, hback, ← Property.isSome_order? hp hq]
  exact Comparison.consistent_decides _

/-- No comparison holds of a text and an integer. An integer and a NaN are different from each other
on either side, and not in any order. -/
theorem Expr.comparisons_consistent_of_nan :
    let nan : Property := .float ⟨0x7ff8000000000000⟩
    let lookup : Lookup := fun _ => none
    (∀ op, (binary (.comparison op) (literal (.string "1")) (literal (.integer 1))).holds {} lookup
      = false)
      ∧ nan.isNaN = true
      ∧ Comparison.Consistent
          (fun op => (binary (.comparison op) (literal (.integer 1)) (literal nan)).holds {} lookup)
          (fun op => (binary (.comparison op) (literal nan) (literal (.integer 1))).holds {} lookup)
            false := by
  intro nan lookup
  have hapart : (Value.property (.string "1")).Apart (.property (.integer 1)) :=
    .classes (by decide)
  have htext :=
    (Expr.comparisons_consistent {} lookup (literal (.string "1")) (literal (.integer 1))).1 hapart
  have hnumbers :=
    (Expr.comparisons_consistent {} lookup (literal (.integer 1)) (literal nan)).2.1
    (.integer 1) nan
    .number rfl rfl rfl rfl
  exact ⟨htext.1, by decide +kernel, hnumbers⟩

end CodeGraph
