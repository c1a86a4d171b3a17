import CodeGraph.Proofs.Comparing

/-!
The double nearest to an integer.

A finite double is a whole number of units of `2 ^ -1074`, and its place tells how many. Counted in
these units, doubles and integers are integers, and what is rounded away is the remainder of a
division.

* `Double.toRat`: the rational number that a finite double stands for.
  `Double.compare?_of_isFinite`: finite doubles are in the order of these numbers.
* `Double.roundRatio_nearest`: the integer nearest to a quotient, a half going to the even one.
* `Double.IsNearest`, `Double.isNearest_ofInt`: an integer is taken to the double nearest to it.
* `Double.IsNearest.toRat_le`, `Double.IsNearest.place_le_place`: rounding passes over no double and
  keeps the order. `Double.IsNearest.place_eq_iff`: only one double is nearest to a number.
-/

namespace CodeGraph
namespace Double

/-! ### Units -/

/-- The exponent of the least double above zero, counted downwards. -/
@[irreducible]
def leastExponent : Nat := 1074

lemma leastExponent_eq : leastExponent = 1074 := by rw [leastExponent]

/-- How many units of `2 ^ -1074` the double of a magnitude has. -/
def unitsOf (m : Nat) : Nat :=
  if m < 2 ^ 52 then m else (2 ^ 52 + m % 2 ^ 52) * 2 ^ (m / 2 ^ 52 - 1)

/-- A significand and the place of its last bit. The significand may be the power of two after the
last one, which carries into the exponent. -/
lemma unitsOf_significand {e m : Nat} (hm : 2 ^ 52 ≤ m) (hm' : m ≤ 2 ^ 53) :
    unitsOf (e * 2 ^ 52 + m) = m * 2 ^ e := by
  have hge : ¬ e * 2 ^ 52 + m < 2 ^ 52 := by omega
  rw [unitsOf, if_neg hge]
  rcases hm'.lt_or_eq with hlt | rfl
  · have hdiv : (e * 2 ^ 52 + m) / 2 ^ 52 - 1 = e := by omega
    have hmod : 2 ^ 52 + (e * 2 ^ 52 + m) % 2 ^ 52 = m := by omega
    rw [hdiv, hmod]
  · have hdiv : (e * 2 ^ 52 + 2 ^ 53) / 2 ^ 52 - 1 = e + 1 := by omega
    have hmod : 2 ^ 52 + (e * 2 ^ 52 + 2 ^ 53) % 2 ^ 52 = 2 ^ 52 := by omega
    rw [hdiv, hmod, pow_succ]
    ring

/-- A magnitude that is not subnormal has an exponent and a significand of 53 bits. -/
lemma exists_significand {k : Nat} (hk : 2 ^ 52 ≤ k) :
    ∃ e m, 2 ^ 52 ≤ m ∧ m < 2 ^ 53 ∧ k = e * 2 ^ 52 + m :=
  ⟨k / 2 ^ 52 - 1, 2 ^ 52 + k % 2 ^ 52, by omega, by omega, by omega⟩

lemma unitsOf_of_le {m : Nat} (hm : m ≤ 2 ^ 52) : unitsOf m = m := by
  rcases hm.lt_or_eq with hlt | rfl
  · exact if_pos hlt
  · decide +kernel

/-- Magnitudes are ordered like the numbers that they stand for. -/
lemma strictMono_unitsOf : StrictMono unitsOf := by
  refine strictMono_nat_of_lt_succ fun k => ?_
  rcases Nat.lt_or_ge k (2 ^ 52) with hk | hk
  · rw [unitsOf_of_le hk.le, unitsOf_of_le (show k + 1 ≤ 2 ^ 52 from hk)]
    exact Nat.lt_succ_self k
  · obtain ⟨e, m, hm, hm', rfl⟩ := exists_significand hk
    rw [Nat.add_assoc, unitsOf_significand hm hm'.le,
      unitsOf_significand (hm.trans (Nat.le_succ m)) hm']
    exact Nat.mul_lt_mul_of_pos_right (Nat.lt_succ_self m) (by positivity)

/-- The units of the double at a place. -/
def unitsAt (z : ℤ) : ℤ := if z < 0 then -unitsOf z.natAbs else unitsOf z.natAbs

lemma unitsAt_natCast (m : Nat) : unitsAt m = unitsOf m := if_neg (by omega)

lemma unitsAt_neg (z : ℤ) : unitsAt (-z) = -unitsAt z := by
  rcases lt_trichotomy z 0 with hz | rfl | hz
  · rw [unitsAt, unitsAt, if_neg (by omega), if_pos hz, Int.natAbs_neg, neg_neg]
  · rfl
  · rw [unitsAt, unitsAt, if_pos (by omega), if_neg (by omega), Int.natAbs_neg]

/-- Values are ordered as their places are. -/
lemma strictMono_unitsAt : StrictMono unitsAt := by
  intro a b hab
  have hzero : unitsOf 0 = 0 := rfl
  rw [unitsAt, unitsAt]
  split_ifs with ha hb hb
  · have := strictMono_unitsOf (show b.natAbs < a.natAbs by omega)
    omega
  · have := strictMono_unitsOf (show 0 < a.natAbs by omega)
    omega
  · omega
  · have := strictMono_unitsOf (show a.natAbs < b.natAbs by omega)
    omega

/-! ### Finite doubles as rationals -/

/-- A double that is neither infinite nor a NaN. -/
def IsFinite (x : Double) : Prop := x.magnitude < infinityMagnitude

instance (x : Double) : Decidable x.IsFinite :=
  inferInstanceAs (Decidable (x.magnitude < infinityMagnitude))

/-- The rational number that a finite double stands for. -/
def toRat (x : Double) : ℚ :=
  (if x.isNegative then -1 else 1) * (x.significand * 2 ^ x.binaryExponent)

variable {x y : Double}

/-- The value of a float in units of its least positive number. -/
lemma significand_mul_binaryExponent (x : Double) :
    (x.significand : ℚ) * 2 ^ x.binaryExponent = unitsOf x.magnitude / 2 ^ leastExponent := by
  have hleast := leastExponent_eq
  rw [significand, binaryExponent, unitsOf, Nat.pow_eq]
  split_ifs with hm
  · have hexp : (-1074 : ℤ) = -leastExponent := by omega
    rw [hexp, zpow_neg, zpow_natCast, div_eq_mul_inv]
  · have hexp : ((x.magnitude / 2 ^ 52 : Nat) : ℤ) - 1075
        = (x.magnitude / 2 ^ 52 - 1 : Nat) - leastExponent := by
      omega
    rw [hexp, zpow_sub₀ two_ne_zero, zpow_natCast, zpow_natCast, ← mul_div_assoc, Nat.cast_mul,
      Nat.cast_pow, Nat.cast_ofNat]

lemma toRat_eq (x : Double) : x.toRat = unitsAt x.place / 2 ^ leastExponent := by
  rw [toRat, significand_mul_binaryExponent, place]
  cases x.isNegative with
  | false => simp [unitsAt_natCast]
  | true => simp [unitsAt_neg, unitsAt_natCast, neg_div]

lemma toRat_lt_toRat_iff : x.toRat < y.toRat ↔ x.place < y.place := by
  rw [toRat_eq, toRat_eq, div_lt_div_iff_of_pos_right (by positivity), Int.cast_lt,
    strictMono_unitsAt.lt_iff_lt]

lemma toRat_inj : x.toRat = y.toRat ↔ x.place = y.place := by
  rw [toRat_eq, toRat_eq, div_left_inj' (by positivity), Int.cast_inj,
    strictMono_unitsAt.injective.eq_iff]

/-- **Finite doubles are in the order of their rational numbers.** -/
lemma compare?_of_isFinite (hx : x.IsFinite) (hy : y.IsFinite) :
    x.compare? y = some (compare x.toRat y.toRat) := by
  have hnan : (x.isNaN || y.isNaN) = false := by
    rw [isNaN, isNaN, decide_eq_false (Nat.not_lt.2 hx.le), decide_eq_false (Nat.not_lt.2 hy.le)]
    rfl
  rw [compare?, hnan, if_neg Bool.false_ne_true]
  refine congrArg some ?_
  rcases lt_trichotomy x.place y.place with h | h | h
  · rw [compare_lt_iff_lt.2 h, compare_lt_iff_lt.2 (toRat_lt_toRat_iff.2 h)]
  · rw [compare_eq_iff_eq.2 h, compare_eq_iff_eq.2 (toRat_inj.2 h)]
  · rw [compare_gt_iff_gt.2 h, compare_gt_iff_gt.2 (toRat_lt_toRat_iff.2 h)]

/-! ### Rounding to the nearest integer -/

lemma roundRatio_eq_or (num den : Nat) :
    roundRatio num den = num / den ∨ roundRatio num den = num / den + 1 := by
  simp only [roundRatio]
  split_ifs <;> omega

/-- **Rounding**: no other integer is as near to the quotient, unless one is equally near and the
chosen one is even. -/
lemma roundRatio_nearest {num den : Nat} (hden : 0 < den) {k : ℤ} (hk : k ≠ roundRatio num den) :
    |(num : ℤ) - roundRatio num den * den| < |(num : ℤ) - k * den|
      ∨ |(num : ℤ) - roundRatio num den * den| = |(num : ℤ) - k * den|
        ∧ roundRatio num den % 2 = 0 := by
  have hnum : (num : ℤ) = (num / den : Nat) * den + (num % den : Nat) := by
    exact_mod_cast (Nat.div_add_mod' num den).symm
  have hrest : num % den < den := Nat.mod_lt _ hden
  -- the distances to the integers on both sides of the quotient
  have hbelow : ∀ j : Nat, k + j ≤ (num / den : Nat) →
      (num % den : Nat) + j * (den : ℤ) ≤ |(num : ℤ) - k * den| := by
    intro j hj
    have hmul := mul_le_mul_of_nonneg_right hj (Int.natCast_nonneg den)
    have habs := le_abs_self ((num : ℤ) - k * den)
    rw [add_mul] at hmul
    omega
  have habove : ∀ j : Nat, (num / den : Nat) + 1 + j ≤ k →
      den - (num % den : Nat) + j * (den : ℤ) ≤ |(num : ℤ) - k * den| := by
    intro j hj
    have hmul := mul_le_mul_of_nonneg_right hj (Int.natCast_nonneg den)
    have habs := neg_le_abs ((num : ℤ) - k * den)
    rw [add_mul, add_mul, one_mul] at hmul
    omega
  have hdist : |(num : ℤ) - (num / den : Nat) * den| = (num % den : Nat) := by
    rw [abs_of_nonneg] <;> omega
  have hdist' : |(num : ℤ) - ((num / den : Nat) + 1) * den| = den - (num % den : Nat) := by
    rw [add_mul, one_mul, abs_of_nonpos] <;> omega
  have hround : 2 * (num % den) < den ∧ roundRatio num den = num / den
      ∨ den < 2 * (num % den) ∧ roundRatio num den = num / den + 1
      ∨ den = 2 * (num % den) ∧ roundRatio num den = num / den + num / den % 2 := by
    simp only [roundRatio]
    split_ifs <;> omega
  obtain ⟨hlt, hm⟩ | ⟨hlt, hm⟩ | ⟨htie, hm⟩ := hround
  · rw [hm] at hk ⊢
    rw [hdist]
    rcases lt_or_gt_of_ne hk with h | h
    · have := hbelow 1 (by omega)
      omega
    · have := habove 0 (by omega)
      omega
  · rw [hm, Nat.cast_succ] at hk ⊢
    rw [hdist']
    rcases lt_or_gt_of_ne hk with h | h
    · have := hbelow 0 (by omega)
      omega
    · have := habove 1 (by omega)
      omega
  · have heven : roundRatio num den % 2 = 0 := by omega
    have hsame : |(num : ℤ) - roundRatio num den * den| = (num % den : Nat) := by
      rcases Nat.mod_two_eq_zero_or_one (num / den) with h | h
      · rw [hm, h, Nat.add_zero, hdist]
      · rw [hm, h, Nat.cast_succ, hdist']
        omega
    rw [hsame]
    rcases lt_or_ge ((num / den : Nat) : ℤ) k with h | h
    · have := habove 0 (by omega)
      omega
    · have := hbelow 0 (by omega)
      omega

/-! ### The double nearest to an integer -/

lemma logRatio_one {n : Nat} (hn : n ≠ 0) : logRatio n 1 = n.log2 := by
  have hlog : Nat.log2 1 = 0 := by decide
  have hpow : 2 ^ n.log2 ≤ n := Nat.log2_self_le hn
  simp [logRatio, hlog, hpow]

/-- The magnitude of an integer is made of the place `e` of the last bit of its significand and of
the significand `m`, which is a quotient rounded to an integer. -/
lemma exists_magnitudeOfRatio {n : Nat} (hn : n ≠ 0) (hlog : n.log2 ≤ 1022) :
    ∃ e num den : Nat, 0 < den ∧ 2 ^ 52 ≤ roundRatio num den ∧ roundRatio num den ≤ 2 ^ 53
      ∧ n * 2 ^ leastExponent * den = num * 2 ^ e ∧ 2 ^ 52 * 2 ^ e ≤ n * 2 ^ leastExponent
      ∧ magnitudeOfRatio n 1 = e * 2 ^ 52 + roundRatio num den
      ∧ magnitudeOfRatio n 1 < infinityMagnitude := by
  have hleast := leastExponent_eq
  have hlow : 2 ^ n.log2 ≤ n := Nat.log2_self_le hn
  have hhigh : n < 2 ^ (n.log2 + 1) := Nat.lt_log2_self
  obtain ⟨num, hnum⟩ : ∃ num, num = n * 2 ^ (52 - n.log2) := ⟨_, rfl⟩
  obtain ⟨den, hden⟩ : ∃ den, den = 2 ^ (n.log2 - 52) := ⟨_, rfl⟩
  have hpos : 0 < den := hden ▸ Nat.two_pow_pos _
  have hscale : 2 ^ 52 * den = 2 ^ n.log2 * 2 ^ (52 - n.log2) := by
    have hsum : 52 + (n.log2 - 52) = n.log2 + (52 - n.log2) := by omega
    rw [hden, ← pow_add, ← pow_add, hsum]
  have hge : 2 ^ 52 ≤ num / den := by
    rw [Nat.le_div_iff_mul_le hpos, hscale, hnum]
    exact Nat.mul_le_mul_right _ hlow
  have hlt : num / den < 2 ^ 53 := by
    rw [Nat.div_lt_iff_lt_mul hpos]
    calc num < 2 ^ (n.log2 + 1) * 2 ^ (52 - n.log2) :=
      hnum ▸ Nat.mul_lt_mul_of_pos_right hhigh (Nat.two_pow_pos _)
      _ = 2 * (2 ^ 52 * den) := by rw [hscale, pow_succ]; ring
      _ = 2 ^ 53 * den := by rw [← mul_assoc]; norm_num
  have hround := roundRatio_eq_or num den
  have hfinite : (n.log2 + 1022) * 2 ^ 52 + roundRatio num den < infinityMagnitude := by
    rw [infinityMagnitude, Nat.pow_eq]
    omega
  have hmagnitude : magnitudeOfRatio n 1 = (n.log2 + 1022) * 2 ^ 52 + roundRatio num den := by
    have hq : max (logRatio n 1 - 52) (-1074) = (n.log2 : ℤ) - 52 := by
      rw [logRatio_one hn]
      omega
    have hshift : (-((n.log2 : ℤ) - 52)).toNat = 52 - n.log2 := by omega
    have hshift' : ((n.log2 : ℤ) - 52).toNat = n.log2 - 52 := by omega
    have hexp : ((n.log2 : ℤ) - 52 + 1074).toNat = n.log2 + 1022 := by omega
    simp only [magnitudeOfRatio, if_neg hn, hq, hshift, hshift', hexp, Nat.pow_eq, one_mul,
      ← hnum, ← hden]
    exact min_eq_left hfinite.le
  refine ⟨n.log2 + 1022, num, den, hpos, by omega, by omega, ?_, ?_, hmagnitude,
    hmagnitude ▸ hfinite⟩
  · have hsum : leastExponent + (n.log2 - 52) = 52 - n.log2 + (n.log2 + 1022) := by omega
    rw [hnum, hden, mul_assoc, mul_assoc, ← pow_add, ← pow_add, hsum]
  · have hsum : 52 + (n.log2 + 1022) = n.log2 + leastExponent := by omega
    rw [← pow_add, hsum, pow_add]
    exact Nat.mul_le_mul_right _ hlow

/-- What is above the units of a significand's leading bit is a multiple of the units of its last
one. -/
lemma exists_unitsAt_eq_mul {e : Nat} {z : ℤ} (h : 2 ^ 52 * 2 ^ e ≤ unitsAt z) :
    ∃ k : ℤ, unitsAt z = k * 2 ^ e := by
  have hone : (1 : ℤ) ≤ 2 ^ e := one_le_pow₀ (by norm_num)
  have hz : ¬ z < 0 := by
    intro hz
    rw [unitsAt, if_pos hz] at h
    omega
  have hunits : unitsAt z = unitsOf z.natAbs := if_neg hz
  have hlarge : 2 ^ 52 ≤ z.natAbs := by
    by_contra hsmall
    rw [hunits, unitsOf_of_le (by omega)] at h
    omega
  obtain ⟨f, m, hm, hm', hplace⟩ := exists_significand hlarge
  rw [hunits, hplace, unitsOf_significand hm hm'.le, Nat.cast_mul, Nat.cast_pow,
    Nat.cast_ofNat] at h ⊢
  have hef : e ≤ f := by
    by_contra hlt
    have hpow : (2 : ℤ) ^ (f + 1) ≤ 2 ^ e := pow_le_pow_right₀ (by norm_num) (by omega)
    have hm' : (m : ℤ) < 2 ^ 53 := by exact_mod_cast hm'
    have hpos : (0 : ℤ) < 2 ^ f := by positivity
    rw [pow_succ] at hpow
    nlinarith
  refine ⟨m * 2 ^ (f - e), ?_⟩
  rw [mul_assoc, ← pow_add, Nat.sub_add_cancel hef]

/-- No place is as near to an integer as the one of its magnitude, unless one is equally near and
the magnitude is even. -/
lemma unitsAt_nearest {n : Nat} (hn : n ≠ 0) (hlog : n.log2 ≤ 1022) {z : ℤ}
    (hz : unitsAt z ≠ unitsAt (magnitudeOfRatio n 1 : Nat)) :
    |(n : ℤ) * 2 ^ leastExponent - unitsAt (magnitudeOfRatio n 1 : Nat)|
      < |(n : ℤ) * 2 ^ leastExponent - unitsAt z|
      ∨ |(n : ℤ) * 2 ^ leastExponent - unitsAt (magnitudeOfRatio n 1 : Nat)|
        = |(n : ℤ) * 2 ^ leastExponent - unitsAt z|
        ∧ magnitudeOfRatio n 1 % 2 = 0 := by
  obtain ⟨e, num, den, hden, hm, hm', hscale, hlow, hmagnitude, -⟩ :=
    exists_magnitudeOfRatio hn hlog
  have hunits : unitsAt (magnitudeOfRatio n 1 : Nat) = roundRatio num den * 2 ^ e := by
    rw [unitsAt_natCast, hmagnitude, unitsOf_significand hm hm', Nat.cast_mul, Nat.cast_pow,
      Nat.cast_ofNat]
  have heven : magnitudeOfRatio n 1 % 2 = roundRatio num den % 2 := by omega
  have hscale : (n : ℤ) * 2 ^ leastExponent * den = num * 2 ^ e := by exact_mod_cast hscale
  have hlow : (2 : ℤ) ^ 52 * 2 ^ e ≤ n * 2 ^ leastExponent := by exact_mod_cast hlow
  have hden : (0 : ℤ) < den := by exact_mod_cast hden
  have hpow : (0 : ℤ) < 2 ^ e := by positivity
  rw [hunits] at hz ⊢
  rw [heven]
  generalize (n : ℤ) * 2 ^ leastExponent = u at *
  -- distances in units, and distances of integers to the quotient that was rounded
  have hdist : ∀ k : ℤ, den * |u - k * 2 ^ e| = 2 ^ e * |(num : ℤ) - k * den| := by
    intro k
    rw [← abs_of_pos hden, ← abs_mul, abs_of_pos hden, ← abs_of_pos hpow, ← abs_mul,
      abs_of_pos hpow]
    congr 1
    linear_combination hscale
  have hnearest : ∀ k : ℤ, k ≠ roundRatio num den →
      |u - roundRatio num den * 2 ^ e| < |u - k * 2 ^ e|
      ∨ |u - roundRatio num den * 2 ^ e| = |u - k * 2 ^ e| ∧ roundRatio num den % 2 = 0 := by
    intro k hk
    refine (roundRatio_nearest (by exact_mod_cast hden) hk).imp (fun hlt => ?_)
      fun heq => ⟨?_, heq.2⟩
    · refine lt_of_mul_lt_mul_left ?_ hden.le
      rw [hdist, hdist]
      exact mul_lt_mul_of_pos_left hlt hpow
    · refine mul_left_cancel₀ hden.ne' ?_
      rw [hdist, hdist, heq.1]
  by_cases hlarge : 2 ^ 52 * 2 ^ e ≤ unitsAt z
  · obtain ⟨k, hk⟩ := exists_unitsAt_eq_mul hlarge
    rw [hk] at hz ⊢
    exact hnearest k fun h => hz (by rw [h])
  · -- below the leading bit the first significand is nearer
    have hfirst : |u - roundRatio num den * 2 ^ e| ≤ |u - 2 ^ 52 * 2 ^ e| := by
      by_cases hm : (2 ^ 52 : ℤ) = roundRatio num den
      · rw [hm]
      · exact (hnearest _ hm).elim le_of_lt fun h => h.1.le
    rw [abs_of_nonneg (sub_nonneg.2 hlow)] at hfirst
    have habs := le_abs_self (u - unitsAt z)
    omega

/-! ### The nearest double -/

/-- A finite double is the nearest one to a number if no other is as near, unless one is equally
near and the significand of the first is even. -/
structure IsNearest (q : ℚ) (x : Double) : Prop where
  isFinite : x.IsFinite
  nearest : ∀ y : Double, y.IsFinite → y.toRat ≠ x.toRat →
    |q - x.toRat| < |q - y.toRat| ∨ |q - x.toRat| = |q - y.toRat| ∧ x.significand % 2 = 0

/-- A significand is even exactly if its magnitude is. -/
lemma significand_mod_two (x : Double) : x.significand % 2 = x.magnitude % 2 := by
  rw [significand, Nat.pow_eq]
  split_ifs <;> omega

lemma place_ofParts (negative : Bool) {m : Nat} (hm : m < infinityMagnitude) :
    (ofParts negative m).place = if negative then -(m : ℤ) else m := by
  have hlt : m < 2 ^ 63 := by
    rw [infinityMagnitude, Nat.pow_eq] at hm
    omega
  have hmagnitude : (ofParts negative m).magnitude = m := by
    rw [magnitude_ofParts, Nat.pow_eq, Nat.mod_eq_of_lt hlt]
  have hnegative : (ofParts negative m).isNegative = negative := by
    rw [isNegative, ofParts, UInt64.toNat_ofNat', Nat.pow_eq, Nat.mod_eq_of_lt hlt]
    cases negative
    · rw [if_neg Bool.false_ne_true, decide_eq_false_iff_not]
      omega
    · rw [if_pos rfl, decide_eq_true_iff]
      omega
  rw [place, hmagnitude, hnegative]

lemma natAbs_place (x : Double) : x.place.natAbs = x.magnitude := by
  rw [place]
  split_ifs <;> omega

/-- The distance of an integer from a double, counted in units. -/
lemma abs_sub_toRat (i : ℤ) (x : Double) :
    |(i : ℚ) - x.toRat| = (|i * 2 ^ leastExponent - unitsAt x.place| : ℤ) / 2 ^ leastExponent := by
  have hpow : (0 : ℚ) < 2 ^ leastExponent := by positivity
  rw [toRat_eq, Int.cast_abs, Int.cast_sub, Int.cast_mul, Int.cast_pow, Int.cast_ofNat,
    ← abs_of_pos hpow, ← abs_div, abs_of_pos hpow, sub_div, mul_div_cancel_right₀ _ hpow.ne']

/-- **An integer is taken to the double nearest to it**, if it is not beyond the largest one. -/
theorem isNearest_ofInt {i : ℤ} (hlog : i.natAbs.log2 ≤ 1022) : IsNearest i (ofInt i) := by
  by_cases hi : i = 0
  · subst hi
    have hzero : (ofInt 0).toRat = 0 := by
      rw [toRat_eq]
      decide +kernel
    refine ⟨by decide +kernel, fun y _ hy => .inl ?_⟩
    rw [hzero] at hy ⊢
    simpa using hy
  have hn : i.natAbs ≠ 0 := Int.natAbs_ne_zero.2 hi
  obtain ⟨e, num, den, -, -, -, -, -, -, hfinite⟩ := exists_magnitudeOfRatio hn hlog
  have hplace : (ofInt i).place = if i < 0 then -(magnitudeOfRatio i.natAbs 1 : ℤ)
      else magnitudeOfRatio i.natAbs 1 := by
    rw [ofInt, ofRatio, place_ofParts _ hfinite]
    simp only [decide_eq_true_eq]
  have hmagnitude : (ofInt i).magnitude = magnitudeOfRatio i.natAbs 1 := by
    rw [← natAbs_place, hplace]
    split_ifs <;> omega
  have hpow : (0 : ℚ) < 2 ^ leastExponent := by positivity
  refine ⟨hmagnitude.trans_lt hfinite, fun y _ hy => ?_⟩
  have hy : unitsAt y.place ≠ unitsAt (ofInt i).place := by
    rwa [Ne, strictMono_unitsAt.injective.eq_iff, ← toRat_inj]
  rw [abs_sub_toRat, abs_sub_toRat, div_lt_div_iff_of_pos_right hpow, div_left_inj' hpow.ne',
    Int.cast_lt, Int.cast_inj, significand_mod_two, hmagnitude]
  rcases lt_or_ge i 0 with hneg | hpos
  · -- turned around, the number and all doubles keep their distances
    have hturn : ∀ w : ℤ, |i * 2 ^ leastExponent - w|
        = |(i.natAbs : ℤ) * 2 ^ leastExponent - -w| := by
      intro w
      rw [show (i.natAbs : ℤ) = -i by omega, neg_mul, neg_sub_neg, abs_sub_comm]
    rw [hplace, if_pos hneg] at hy ⊢
    rw [hturn, hturn, ← unitsAt_neg, ← unitsAt_neg, neg_neg]
    refine unitsAt_nearest hn hlog fun heq => hy ?_
    rw [unitsAt_neg] at heq ⊢
    omega
  · rw [hplace, if_neg hpos.not_gt] at hy ⊢
    have hnat : i = (i.natAbs : ℤ) := by omega
    rw [hnat]
    exact unitsAt_nearest hn hlog hy

/-! ### What follows from being nearest -/

variable {q q' : ℚ}

/-- No float is closer than the nearest one. -/
lemma IsNearest.abs_le (h : IsNearest q x) (hy : y.IsFinite) : |q - x.toRat| ≤ |q - y.toRat| := by
  by_cases heq : y.toRat = x.toRat
  · rw [heq]
  · exact (h.nearest y hy heq).elim le_of_lt fun h => h.1.le

/-- A number is on the side of the middle of two doubles on which the nearer one is. -/
lemma IsNearest.add_le (h : IsNearest q x) (hy : y.IsFinite) (hlt : y.toRat < x.toRat) :
    x.toRat + y.toRat ≤ 2 * q := by
  have hsq := sq_le_sq.2 (h.abs_le hy)
  nlinarith

lemma IsNearest.le_add (h : IsNearest q x) (hy : y.IsFinite) (hlt : x.toRat < y.toRat) :
    2 * q ≤ x.toRat + y.toRat := by
  have hsq := sq_le_sq.2 (h.abs_le hy)
  nlinarith

/-- No double stands between a number and the one nearest to it. -/
lemma IsNearest.toRat_le (h : IsNearest q x) (hy : y.IsFinite) (hle : q ≤ y.toRat) :
    x.toRat ≤ y.toRat := by
  by_contra hlt
  have := h.add_le hy (not_le.1 hlt)
  linarith

lemma IsNearest.le_toRat (h : IsNearest q x) (hy : y.IsFinite) (hle : y.toRat ≤ q) :
    y.toRat ≤ x.toRat := by
  by_contra hlt
  have := h.le_add hy (not_le.1 hlt)
  linarith

/-- There is a double at every place below infinity. -/
lemma exists_place {z : ℤ} (hz : z.natAbs < infinityMagnitude) :
    ∃ y : Double, y.IsFinite ∧ y.place = z := by
  have hplace : (ofParts (decide (z < 0)) z.natAbs).place = z := by
    rw [place_ofParts _ hz]
    simp only [decide_eq_true_eq]
    split_ifs <;> omega
  exact ⟨_, by rwa [IsFinite, ← natAbs_place, hplace], hplace⟩

/-- No two doubles are nearest to a number: of neighbours that are equally near, the significand of
one is odd. -/
lemma IsNearest.place_le (h : IsNearest q x) (h' : IsNearest q y) : y.place ≤ x.place := by
  by_contra! hlt
  have hltRat := toRat_lt_toRat_iff.2 hlt
  -- the double after the first of the two is between them, or it is the second
  obtain ⟨z, hz, hplace⟩ : ∃ z : Double, z.IsFinite ∧ z.place = x.place + 1 := by
    refine exists_place ?_
    have hx := h.isFinite
    have hy := h'.isFinite
    rw [IsFinite, ← natAbs_place] at hx hy
    omega
  have hmiddle := h.le_add h'.isFinite hltRat
  have hmiddle' := h'.add_le h.isFinite hltRat
  rcases (show x.place + 1 ≤ y.place from hlt).lt_or_eq with hbetween | hnext
  · have hxz := h.le_add hz (toRat_lt_toRat_iff.2 (by omega))
    have hzy := toRat_lt_toRat_iff.2 (hplace ▸ hbetween)
    linarith
  · have heven : ∀ {a b : Double}, IsNearest q a → IsNearest q b → b.toRat ≠ a.toRat →
        a.place.natAbs % 2 = 0 := by
      intro a b ha hb hne
      rw [natAbs_place, ← significand_mod_two]
      exact (ha.nearest b hb.isFinite hne).elim (fun hlt =>
        absurd hlt (hb.abs_le ha.isFinite).not_gt) And.right
    have hx := heven h h' hltRat.ne'
    have hy := heven h' h hltRat.ne
    omega

/-- Rounding keeps the order of numbers. -/
lemma IsNearest.place_le_place (h : IsNearest q x) (h' : IsNearest q' y) (hle : q ≤ q') :
    x.place ≤ y.place := by
  rcases hle.lt_or_eq with hlt | rfl
  · by_contra! hplace
    have hltRat := toRat_lt_toRat_iff.2 hplace
    have := h.add_le h'.isFinite hltRat
    have := h'.le_add h.isFinite hltRat
    linarith
  · exact h'.place_le h

/-- A double is nearest to a number exactly if it is the same number as one that is. -/
lemma IsNearest.place_eq_iff (h : IsNearest q x) : y.place = x.place ↔ IsNearest q y := by
  refine ⟨fun hplace => ?_, fun h' => le_antisymm (h.place_le h') (h'.place_le h)⟩
  have hmagnitude : y.magnitude = x.magnitude := by rw [← natAbs_place, hplace, natAbs_place]
  refine ⟨hmagnitude.trans_lt h.isFinite, fun z hz hne => ?_⟩
  rw [toRat_inj.2 hplace] at hne ⊢
  rw [significand_mod_two, hmagnitude, ← significand_mod_two]
  exact h.nearest z hz hne

end Double
end CodeGraph
