import CodeGraph.Proofs.NearestDouble

/-!
Integers against doubles.

Two integers compare by their values. An integer and a double compare as doubles, the integer being
taken to the nearest one, so a double that is nearest to an integer stands in for it even if it is
another number. Nothing else goes wrong: no double is passed over, and the two orders fit together.

* `Double.StandsInFor`: a double that is taken for an integer that it is not.
* `Property.order?_integer_float_of_not_standsInFor`: all other doubles compare with the integer by
  their values.
* `Property.order?_lt_trans`, `Property.equal?_trans_iff`: three properties in a row, integers and
  doubles mixed.
* `Property.numbers_compare`: all of it together. `Property.equal?_of_standsInFor`: two integers and
  a double between them.
-/

namespace CodeGraph

namespace Double

variable {x y : Double}

lemma compare?_eq_lt_iff :
    x.compare? y = some .lt ↔ x.isNaN = false ∧ y.isNaN = false ∧ x.place < y.place := by
  rw [compare?]
  cases x.isNaN <;> cases y.isNaN <;> simp [compare_lt_iff_lt]

lemma compare?_eq_eq_iff :
    x.compare? y = some .eq ↔ x.isNaN = false ∧ y.isNaN = false ∧ x.place = y.place := by
  rw [compare?]
  cases x.isNaN <;> cases y.isNaN <;> simp

end Double

/-- A double stands in for an integer if it is the nearest one to it and not the integer itself. -/
def Double.StandsInFor (x : Double) (i : ℤ) : Prop := x.IsNearest i ∧ x.toRat ≠ i

namespace Property

variable {p q r : Property}

/-! ### An integer against a double -/

lemma isNearest_ofInt (i : Int64) : Double.IsNearest i.toInt (.ofInt i.toInt) := by
  refine Double.isNearest_ofInt ?_
  have hlow := i.le_toInt
  have hhigh := i.toInt_lt
  by_cases hzero : i.toInt.natAbs = 0
  · rw [hzero]
    decide
  · have hlog := (Nat.log2_lt hzero).2 (show i.toInt.natAbs < 2 ^ 64 by omega)
    omega

/-- An integer and a finite double are in the order of two doubles, the first being the nearest to
the integer. -/
lemma order?_integer_float (i : Int64) {x : Double} (hx : x.IsFinite) :
    (integer i).order? (float x) = some (compare (Double.ofInt i.toInt).toRat x.toRat) :=
  Double.compare?_of_isFinite (isNearest_ofInt i).isFinite hx

lemma order?_integer_float_eq_iff (i : Int64) {x : Double} (hx : x.IsFinite) :
    (integer i).order? (float x) = some .eq ↔ x.IsNearest i.toInt := by
  rw [order?_integer_float i hx, Option.some_inj, compare_eq_iff_eq, Double.toRat_inj, eq_comm,
    (isNearest_ofInt i).place_eq_iff]

/-- Unless the double stands in for the integer, their order is that of the numbers. -/
lemma order?_integer_float_of_not_standsInFor {i : Int64} {x : Double} (hx : x.IsFinite)
    (h : ¬ x.StandsInFor i.toInt) :
    (integer i).order? (float x) = some (compare (i.toInt : ℚ) x.toRat) := by
  by_cases hnearest : x.IsNearest i.toInt
  · have hsame : x.toRat = i.toInt := not_not.1 fun hne => h ⟨hnearest, hne⟩
    rw [(order?_integer_float_eq_iff i hx).2 hnearest, hsame, compare_eq_iff_eq.2 rfl]
  · have hround := isNearest_ofInt i
    have hne : (Double.ofInt i.toInt).toRat ≠ x.toRat := fun heq =>
      hnearest (hround.place_eq_iff.1 (Double.toRat_inj.1 heq.symm))
    rw [order?_integer_float i hx]
    -- the nearest double is on the side of the double on which the integer is
    rcases lt_trichotomy (i.toInt : ℚ) x.toRat with hlt | heq | hgt
    · rw [compare_lt_iff_lt.2 hlt, compare_lt_iff_lt.2 ((hround.toRat_le hx hlt.le).lt_of_ne hne)]
    · exact absurd (le_antisymm (hround.toRat_le hx heq.le) (hround.le_toRat hx heq.ge)) hne
    · rw [compare_gt_iff_gt.2 hgt,
        compare_gt_iff_gt.2 ((hround.le_toRat hx hgt.le).lt_of_ne hne.symm)]

/-! ### Three numbers in a row -/

lemma place_ofInt_le {i j : Int64} (h : i.toInt ≤ j.toInt) :
    (Double.ofInt i.toInt).place ≤ (Double.ofInt j.toInt).place :=
  (isNearest_ofInt i).place_le_place (isNearest_ofInt j) (by exact_mod_cast h)

/-- **Being less is transitive**, through integers and doubles in any order. -/
lemma order?_lt_trans (h : p.order? q = some .lt) (h' : q.order? r = some .lt) :
    p.order? r = some .lt := by
  cases p <;> cases q <;> cases r
  all_goals simp only [order?, number?, Double.compare?_eq_lt_iff, Option.some_inj,
    compareOfLessAndEq_eq_lt, compare_lt_iff_lt, reduceCtorEq] at h h' ⊢
  case string.string.string => exact String.lt_trans h h'
  case boolean.boolean.boolean => exact h.trans h'
  case integer.integer.integer => exact h.trans h'
  case integer.integer.float => exact ⟨Double.isNaN_ofInt _, h'.2.1,
    (place_ofInt_le h.le).trans_lt h'.2.2⟩
  case float.integer.integer => exact ⟨h.1, Double.isNaN_ofInt _,
    h.2.2.trans_le (place_ofInt_le h'.le)⟩
  case integer.float.integer =>
    by_contra hle
    exact absurd (h.2.2.trans h'.2.2) (place_ofInt_le (not_lt.1 hle)).not_gt
  all_goals exact ⟨h.1, h'.2.1, h.2.2.trans h'.2.2⟩

/-- Being equal is transitive as well, but for two integers that are equal to one double. -/
lemma equal?_trans_iff (h : p.equal? q = some true) (h' : q.equal? r = some true) :
    p.equal? r = some true ↔ ∀ i x j, p = integer i → q = float x → r = integer j → i = j := by
  cases p <;> cases q <;> cases r
  all_goals simp only [equal?, number?, Double.equal, beq_iff_eq, Double.compare?_eq_eq_iff,
    Option.some_inj,
    reduceCtorEq, integer.injEq, IsEmpty.forall_iff, implies_true, iff_true] at h h' ⊢
  case integer.float.integer i x j => exact ⟨fun heq _ _ _ hi _ hj => hi ▸ hj ▸ heq,
    fun heq => heq i x j rfl rfl rfl⟩
  case string.string.string => exact h.trans h'
  case boolean.boolean.boolean => exact h.trans h'
  case integer.integer.integer => exact h.trans h'
  case integer.integer.float => exact ⟨Double.isNaN_ofInt _, h'.2.1, h ▸ h'.2.2⟩
  case float.integer.integer => exact ⟨h.1, Double.isNaN_ofInt _, h' ▸ h.2.2⟩
  all_goals exact ⟨h.1, h'.2.1, h.2.2.trans h'.2.2⟩

/-- **Integers and doubles compare by their values**, unless the double stands in for the integer,
which makes the two equal. Being less is transitive all the same, and equality is transitive but for
two integers that are equal to one double. -/
theorem numbers_compare (i : Int64) (x : Double) (p q r : Property) :
    (x.IsFinite →
        (¬ x.StandsInFor i.toInt → (integer i).order? (float x)
          = some (compare (i.toInt : ℚ) x.toRat)
          ∧ ((integer i).equal? (float x) = some true ↔ (i.toInt : ℚ) = x.toRat))
        ∧ (x.StandsInFor i.toInt → (integer i).order? (float x) = some .eq
          ∧ (integer i).equal? (float x) = some true))
      ∧ (p.order? q = some .lt → q.order? r = some .lt → p.order? r = some .lt)
      ∧ (p.equal? q = some true → q.equal? r = some true →
        (p.equal? r = some true ↔ ∀ a y b,
          p = integer a → q = float y → r = integer b → a = b)) := by
  refine ⟨fun hx => ⟨fun h => ?_, fun h => ?_⟩, order?_lt_trans, equal?_trans_iff⟩
  · have horder := order?_integer_float_of_not_standsInFor hx h
    exact ⟨horder, by rw [equal?_eq_some_true_iff, horder, Option.some_inj, compare_eq_iff_eq]⟩
  · have horder := (order?_integer_float_eq_iff i hx).2 h.1
    exact ⟨horder, (equal?_eq_some_true_iff _ _).2 horder⟩

/-- The integer `2 ^ 53` is a double, and equal to it. The integers on its two sides that are
doubles as well are in order by way of it. -/
theorem numbers_compare_of_exact :
    let x : Double := ⟨0x4340000000000000⟩
    x.IsFinite ∧ ¬ x.StandsInFor (9007199254740992 : Int64).toInt
      ∧ ((integer 9007199254740992).equal? (float x) = some true
        ↔ ((9007199254740992 : Int64).toInt : ℚ) = x.toRat)
      ∧ (integer 9007199254740991).order? (float x) = some .lt
      ∧ (float x).order? (integer 9007199254740994) = some .lt
      ∧ (integer 9007199254740991).order? (integer 9007199254740994) = some .lt := by
  intro x
  have hfinite : x.IsFinite := by decide +kernel
  have hexact : x.toRat = (9007199254740992 : Int64).toInt := by
    rw [Double.toRat]
    decide +kernel
  have hbelow : (integer 9007199254740991).order? (float x) = some .lt := by decide +kernel
  have habove : (float x).order? (integer 9007199254740994) = some .lt := by decide +kernel
  have hsure : ¬ x.StandsInFor (9007199254740992 : Int64).toInt := fun h => h.2 hexact
  obtain ⟨hcompare, hless, -⟩ :=
    numbers_compare 9007199254740992 x (integer 9007199254740991) (float x)
    (integer 9007199254740994)
  exact ⟨hfinite, hsure, ((hcompare hfinite).1 hsure).2, hbelow, habove, hless hbelow habove⟩

/-- Two integers that differ are both equal to the lesser of them as a double, and the greater one
is not above it. -/
theorem equal?_of_standsInFor :
    let x : Double := ⟨0x4340000000000000⟩
    x.IsFinite ∧ x.toRat = (9007199254740992 : Int64).toInt
      ∧ x.toRat < (9007199254740993 : Int64).toInt
      ∧ (integer 9007199254740993).order? (float x) = some .eq
      ∧ (integer 9007199254740993).equal? (float x) = some true
      ∧ (float x).equal? (integer 9007199254740992) = some true
      ∧ (integer 9007199254740993).equal? (integer 9007199254740992) = some false := by
  intro x
  have hexact : x.toRat = (9007199254740992 : Int64).toInt := by
    rw [Double.toRat]
    decide +kernel
  have hless : (9007199254740992 : Int64).toInt < (9007199254740993 : Int64).toInt := by decide
  exact ⟨by decide +kernel, hexact,
    hexact ▸ Int.cast_lt.2 hless, by decide +kernel, by decide +kernel,
    by decide +kernel, by decide +kernel⟩

end Property
end CodeGraph
