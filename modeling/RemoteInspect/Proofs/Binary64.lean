import Mathlib.Algebra.Order.Field.Basic
import Mathlib.Algebra.Order.Ring.Rat
import Mathlib.Data.Rat.Cast.Defs
import Mathlib.Tactic.Positivity
import Mathlib.Tactic.Ring
import RemoteInspect.Binary64

namespace RemoteInspect.Binary64

variable {x y : Binary64}

def magnitude (x : Binary64) : ℚ :=
  x.significand * 2 ^ ((x.scale : ℤ) - 1075)

def rational (x : Binary64) : ℚ :=
  if x.isNegative then -x.magnitude else x.magnitude

/-- The magnitude, counted in units of `2 ^ -1075`. -/
def units (x : Binary64) : ℕ :=
  x.significand * 2 ^ x.scale

theorem magnitude_eq (x : Binary64) : x.magnitude = x.units / 2 ^ 1075 := by
  have hscale : (2 : ℚ) ^ ((x.scale : ℤ) - (1075 : ℕ)) = 2 ^ x.scale / 2 ^ 1075 := by
    rw [zpow_sub₀ two_ne_zero, zpow_natCast, zpow_natCast]
  rw [magnitude, units, Nat.cast_mul, Nat.cast_pow, Nat.cast_ofNat, mul_div_assoc]
  exact congrArg _ hscale

theorem magnitude_nonneg (x : Binary64) : 0 ≤ x.magnitude := by
  rw [magnitude_eq]
  positivity

theorem fractionField_lt (x : Binary64) : x.fractionField < 2 ^ 52 :=
  Nat.mod_lt _ (by decide)

theorem significand_lt (x : Binary64) : x.significand < 2 ^ 53 := by
  have := x.fractionField_lt
  rw [significand, Nat.shiftLeft_eq]
  split <;> omega

theorem le_significand (h : 1 < x.scale) : 2 ^ 52 ≤ x.significand := by
  rw [scale] at h
  rw [significand, Nat.shiftLeft_eq]
  split <;> omega

theorem scale_le_of_units_eq (h : x.units = y.units) : y.scale ≤ x.scale := by
  by_contra hlt
  obtain ⟨d, hd⟩ := Nat.exists_eq_add_of_lt (Nat.lt_of_not_le hlt)
  have hx : x.significand = y.significand * 2 ^ d * 2 := by
    rw [units, units, hd] at h
    exact Nat.eq_of_mul_eq_mul_right (Nat.two_pow_pos x.scale) (h.trans (by ring))
  have hlow : 1 ≤ x.scale := Nat.le_max_right ..
  have hy := le_significand (x := y) (by omega)
  have hpow : y.significand ≤ y.significand * 2 ^ d :=
    Nat.le_mul_of_pos_right _ (Nat.two_pow_pos d)
  have := x.significand_lt
  omega

theorem fields_of_units_eq (h : x.units = y.units) :
    x.exponentField = y.exponentField ∧ x.fractionField = y.fractionField := by
  have hscale := Nat.le_antisymm (scale_le_of_units_eq h.symm) (scale_le_of_units_eq h)
  have hsignificand : x.significand = y.significand := by
    rw [units, units, hscale] at h
    exact Nat.eq_of_mul_eq_mul_right (Nat.two_pow_pos y.scale) h
  have := x.fractionField_lt
  have := y.fractionField_lt
  simp only [significand, scale, Nat.shiftLeft_eq] at hsignificand hscale
  split at hsignificand <;> split at hsignificand <;> omega

theorem eq_of_fields (hnegative : x.isNegative = y.isNegative)
    (hexponent : x.exponentField = y.exponentField)
    (hfraction : x.fractionField = y.fractionField) : x = y := by
  obtain ⟨x⟩ := x
  obtain ⟨y⟩ := y
  have hx := x.toNat_lt
  have hy := y.toNat_lt
  simp only [isNegative, exponentField, fractionField, Nat.shiftLeft_eq, Nat.shiftRight_eq_div_pow,
    decide_eq_decide] at hnegative hexponent hfraction
  have hbits : x.toNat = y.toNat := by omega
  rw [UInt64.toNat_inj.mp hbits]

/-- Only the zeros are two patterns of one number. -/
theorem eq_of_rational_eq (h : x.rational = y.rational) (hx : x.rational ≠ 0) : x = y := by
  have hx' := x.magnitude_nonneg
  have hy' := y.magnitude_nonneg
  have hsame : x.isNegative = y.isNegative ∧ x.magnitude = y.magnitude := by
    rw [rational, rational] at h
    rw [rational] at hx
    cases hxn : x.isNegative <;> cases hyn : y.isNegative <;> simp [hxn, hyn] at h hx ⊢ <;> grind
  have hunits : x.units = y.units := by
    rw [magnitude_eq, magnitude_eq] at hsame
    exact_mod_cast (div_left_inj' (by positivity)).mp hsame.2
  exact eq_of_fields hsame.1 (fields_of_units_eq hunits).1 (fields_of_units_eq hunits).2

theorem denominator_pos (x : Binary64) : 0 < x.denominator := by
  rw [denominator, Nat.one_shiftLeft]
  exact Nat.two_pow_pos _

theorem scaled_eq_div (m k b : ℕ) :
    ((m * 2 ^ k : ℕ) : ℚ) / 2 ^ b = (m * 2 ^ (k - b) : ℕ) / (2 ^ (b - k) : ℕ) := by
  have hexponent : k + (b - k) = k - b + b := by omega
  have hnat : m * 2 ^ k * 2 ^ (b - k) = m * 2 ^ (k - b) * 2 ^ b := by
    rw [Nat.mul_assoc, Nat.mul_assoc, ← Nat.pow_add, ← Nat.pow_add, hexponent]
  rw [div_eq_div_iff (by positivity) (by positivity)]
  exact_mod_cast hnat

theorem magnitude_eq_div (x : Binary64) : x.magnitude = x.numerator / x.denominator := by
  have hscaled := scaled_eq_div x.significand x.scale 1075
  rw [← Nat.shiftLeft_eq _ (x.scale - 1075), ← Nat.one_shiftLeft (1075 - x.scale)] at hscaled
  exact (magnitude_eq x).trans hscaled

theorem eq_mul_iff {n d i : ℤ} (hd : 0 < d) : n = i * d ↔ n % d = 0 ∧ n / d = i := by
  constructor
  · rintro rfl
    exact ⟨Int.mul_emod_left .., Int.mul_ediv_cancel _ hd.ne'⟩
  · rintro ⟨hmod, rfl⟩
    exact (Int.ediv_mul_cancel (Int.dvd_of_emod_eq_zero hmod)).symm

theorem rational_eq_integer_iff (x : Binary64) (i : ℤ) :
    x.rational = i ↔ x.numerator % x.denominator = 0 ∧
      (if x.isNegative then -((x.numerator : ℤ) / x.denominator)
        else (x.numerator : ℤ) / x.denominator) = i := by
  have hpos : (0 : ℤ) < x.denominator := Int.natCast_pos.mpr x.denominator_pos
  have hmagnitude : ∀ j : ℤ, x.magnitude = j ↔
      x.numerator % x.denominator = 0 ∧ (x.numerator : ℤ) / x.denominator = j := by
    intro j
    have hdenominator : (x.denominator : ℚ) ≠ 0 := Nat.cast_ne_zero.mpr x.denominator_pos.ne'
    rw [magnitude_eq_div, div_eq_iff hdenominator]
    have hcast := eq_mul_iff (n := x.numerator) (i := j) hpos
    rw [← Int.natCast_mod, Int.natCast_eq_zero] at hcast
    exact_mod_cast hcast
  rw [rational]
  cases x.isNegative
  · exact hmagnitude i
  · rw [if_pos rfl, if_pos rfl, neg_eq_iff_eq_neg, neg_eq_iff_eq_neg]
    exact_mod_cast hmagnitude (-i)

theorem toInteger?_eq_some_iff {i : Int64} :
    x.toInteger? = some i ↔ x.isFinite ∧ x.rational = i.toInt := by
  have hlow := i.le_toInt
  have hhigh := i.toInt_lt
  rw [rational_eq_integer_iff, ← and_assoc, toInteger?, Int64.toInt_minValue, Int64.toInt_maxValue]
  by_cases h : x.isFinite ∧ x.numerator % x.denominator = 0
  · rw [if_pos h]
    simp only [h, and_self, true_and]
    generalize (if x.isNegative then -((x.numerator : ℤ) / x.denominator)
      else (x.numerator : ℤ) / x.denominator) = n
    constructor
    · intro hn
      split at hn
      · rename_i hrange
        cases hn
        exact (Int64.toInt_ofInt_of_le hrange.1 (by omega)).symm
      · cases hn
    · rintro rfl
      rw [if_pos ⟨hlow, by omega⟩, Int64.ofInt_toInt]
  · rw [if_neg h]
    exact iff_of_false (Option.some_ne_none i).symm fun hi => h hi.1

theorem isFinite_of_isNaN (h : x.isNaN) : x.isFinite = false := by
  simp only [isNaN, isFinite, decide_eq_true_eq] at h ⊢
  simp [h.1]

def towardZero (q : ℚ) : ℤ :=
  q.num.tdiv q.den

theorem towardZero_intCast (i : ℤ) : towardZero i = i := by
  rw [towardZero, Rat.num_intCast, Rat.den_intCast, Nat.cast_one, Int.tdiv_one]

/-- What is left of a number that is rounded toward zero. An infinity leaves no number. -/
def fraction? (x : Binary64) : Option ℚ :=
  if x.isFinite then some (x.rational - towardZero x.rational) else none

theorem fraction?_eq_zero_iff :
    x.fraction? = some 0 ↔ x.isFinite ∧ x.rational = towardZero x.rational := by
  rw [fraction?]
  by_cases h : x.isFinite
  · simp [h, sub_eq_zero]
  · simp [h]

/-- The number rounded toward zero, or the end of the range that it is beyond. -/
def cast (x : Binary64) : Int64 :=
  if x.isNaN then 0
  else Int64.ofInt (max (-2 ^ 63) (min (towardZero x.rational) (2 ^ 63 - 1)))

theorem cast_of_integer {i : ℤ} (hfinite : x.isFinite) (h : x.rational = i) (hlow : -2 ^ 63 ≤ i)
    (hhigh : i < 2 ^ 63) : x.cast = Int64.ofInt i := by
  have hnan : ¬ x.isNaN := fun hnan => by cases hfinite.symm.trans (isFinite_of_isNaN hnan)
  rw [cast, if_neg hnan, h, towardZero_intCast, min_eq_left (by omega), max_eq_right hlow]

theorem toInteger?_eq_ite (x : Binary64) :
    x.toInteger? =
      if x.fraction? = some 0 ∧ -2 ^ 63 ≤ x.rational ∧ x.rational < 2 ^ 63 then some x.cast
      else none := by
  split
  · rename_i h
    obtain ⟨hfraction, hlow, hhigh⟩ := h
    obtain ⟨hfinite, hinteger⟩ := fraction?_eq_zero_iff.mp hfraction
    generalize towardZero x.rational = i at hinteger
    rw [hinteger] at hlow hhigh
    have hlow' : -2 ^ 63 ≤ i := by exact_mod_cast hlow
    have hhigh' : i < 2 ^ 63 := by exact_mod_cast hhigh
    rw [cast_of_integer hfinite hinteger hlow' hhigh', toInteger?_eq_some_iff,
      Int64.toInt_ofInt_of_le hlow' hhigh']
    exact ⟨hfinite, hinteger⟩
  · rename_i h
    rw [Option.eq_none_iff_forall_ne_some]
    intro i hi
    obtain ⟨hfinite, hrational⟩ := toInteger?_eq_some_iff.mp hi
    have hlow := i.le_toInt
    have hhigh := i.toInt_lt
    refine h ⟨fraction?_eq_zero_iff.mpr ⟨hfinite, ?_⟩, ?_, ?_⟩
    · rw [hrational, towardZero_intCast]
    · rw [hrational]
      exact_mod_cast hlow
    · rw [hrational]
      exact_mod_cast hhigh

end RemoteInspect.Binary64
