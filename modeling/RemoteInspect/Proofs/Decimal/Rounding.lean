import Mathlib.Algebra.Order.Field.Power
import Mathlib.Algebra.Order.Ring.Rat
import Mathlib.Data.Rat.Cast.Defs
import Mathlib.Tactic.Linarith
import Mathlib.Tactic.NormNum
import Mathlib.Tactic.Positivity
import Mathlib.Tactic.Ring
import RemoteInspect.Decimal.Rounding

namespace RemoteInspect.Decimal

variable {q r : ℚ} {m n num den p : ℕ} {e : ℤ}

/-- `n` is the integer nearest to `q`, and the even one if there are two. -/
structure Nearest (q : ℚ) (n : ℕ) : Prop where
  near : |q - n| ≤ 1 / 2
  even : |q - n| = 1 / 2 → Even n

structure Leads (e : ℤ) (q : ℚ) : Prop where
  le : 10 ^ e ≤ q
  lt : q < 10 ^ (e + 1)

/-- `r` is `q` at `p` significant digits. -/
inductive Rounds (p : ℕ) : ℚ → ℚ → Prop
  | zero : Rounds p 0 0
  | positive {q : ℚ} {e : ℤ} {n : ℕ} (leads : Leads e q)
      (nearest : Nearest (q * 10 ^ (p - 1 - e)) n) : Rounds p q (n * 10 ^ (e + 1 - p))

namespace Nearest

theorem eq (hm : Nearest q m) (hn : Nearest q n) : m = n := by
  wlog hle : m ≤ n generalizing m n
  · exact (this hn hm (Nat.le_of_not_le hle)).symm
  by_contra hne
  have hm' := abs_le.mp hm.near
  have hn' := abs_le.mp hn.near
  have hupper : (n : ℚ) ≤ (m + 1 : ℕ) := by push_cast; linarith
  obtain rfl : n = m + 1 := by
    have := Nat.cast_le.mp hupper
    omega
  -- both are a half away, so both would be even
  push_cast at hn'
  have hq : q = m + 1 / 2 := by linarith
  have heven : Even m := hm.even (by rw [hq]; norm_num)
  have heven' : Even (m + 1) := hn.even (by rw [hq]; push_cast; norm_num)
  exact Nat.even_add_one.mp heven' heven

theorem le_of_le (hn : Nearest q n) (hm : (m : ℚ) ≤ q) : m ≤ n := by
  have := abs_le.mp hn.near
  have hlt : (m : ℚ) < (n + 1 : ℕ) := by push_cast; linarith
  exact Nat.lt_succ_iff.mp (Nat.cast_lt.mp hlt)

theorem ge_of_ge (hn : Nearest q n) (hm : q ≤ m) : n ≤ m := by
  have := abs_le.mp hn.near
  have hlt : (n : ℚ) < (m + 1 : ℕ) := by push_cast; linarith
  exact Nat.lt_succ_iff.mp (Nat.cast_lt.mp hlt)

theorem div_ten (h : Nearest q (10 * n)) : Nearest (q / 10) n := by
  have hq : q / 10 - n = (q - (10 * n : ℕ)) / 10 := by
    push_cast
    ring
  have hlt : |q / 10 - n| < 1 / 2 := by
    rw [hq, abs_div, abs_of_pos (show (0 : ℚ) < 10 by norm_num)]
    linarith [h.near]
  exact ⟨hlt.le, fun htie => absurd htie hlt.ne⟩

end Nearest

theorem nearest_below {f : ℚ} (hf : 0 ≤ f) (hhalf : f ≤ 1 / 2) (heven : 1 / 2 ≤ f → Even n) :
    Nearest (n + f) n := by
  have habs : |n + f - n| = f := by rw [add_sub_cancel_left, abs_of_nonneg hf]
  exact ⟨habs.trans_le hhalf, fun htie => heven (habs.symm.trans htie).ge⟩

theorem nearest_above {f : ℚ} (hf : f ≤ 1) (hhalf : 1 / 2 ≤ f) (heven : f ≤ 1 / 2 → Even (n + 1)) :
    Nearest (n + f) (n + 1) := by
  have habs : |n + f - (n + 1 : ℕ)| = 1 - f := by
    rw [abs_sub_comm, abs_of_nonneg] <;> push_cast <;> linarith
  exact ⟨by linarith, fun htie => heven (by linarith)⟩

theorem nearest_roundQuotient (hd : 0 < den) : Nearest (num / den) (roundQuotient num den) := by
  have hd' : (0 : ℚ) < den := Nat.cast_pos.mpr hd
  have hsplit : (num : ℚ) / den = (num / den : ℕ) + (num % den : ℕ) / den := by
    have hnum : (num : ℚ) = den * (num / den : ℕ) + (num % den : ℕ) := by
      exact_mod_cast (Nat.div_add_mod num den).symm
    rw [div_eq_iff hd'.ne', add_mul, div_mul_cancel₀ _ hd'.ne', mul_comm]
    exact hnum
  have hrest : ((num % den : ℕ) : ℚ) / den ≤ 1 :=
    (div_le_one hd').mpr (Nat.cast_le.mpr (Nat.mod_lt num hd).le)
  rw [roundQuotient, hsplit]
  generalize num / den = whole at *
  generalize num % den = rest at *
  have hlow : (rest : ℚ) / den ≤ 1 / 2 ↔ 2 * rest ≤ den := by
    rw [div_le_div_iff₀ hd' two_pos, one_mul, mul_comm]
    exact_mod_cast Iff.rfl
  have hhigh : 1 / 2 ≤ (rest : ℚ) / den ↔ den ≤ 2 * rest := by
    rw [div_le_div_iff₀ two_pos hd', one_mul, mul_comm]
    exact_mod_cast Iff.rfl
  by_cases hdown : 2 * rest < den ∨ 2 * rest = den ∧ whole % 2 = 0
  · rw [if_pos hdown]
    refine nearest_below (by positivity) (hlow.mpr (by omega)) fun htie => ?_
    have := hhigh.mp htie
    exact Nat.even_iff.mpr (by omega)
  · rw [if_neg hdown]
    refine nearest_above hrest (hhigh.mpr (by omega)) fun htie => ?_
    have := hlow.mp htie
    exact Nat.even_iff.mpr (by omega)

theorem Leads.pos (h : Leads e q) : 0 < q :=
  lt_of_lt_of_le (by positivity) h.le

theorem Leads.eq {e' : ℤ} (h : Leads e q) (h' : Leads e' q) : e = e' := by
  have hlt : e < e' + 1 := (zpow_lt_zpow_iff_right₀ (by norm_num)).mp (h.le.trans_lt h'.lt)
  have hlt' : e' < e + 1 := (zpow_lt_zpow_iff_right₀ (by norm_num)).mp (h'.le.trans_lt h.lt)
  omega

theorem Rounds.eq {r' : ℚ} (h : Rounds p q r) (h' : Rounds p q r') : r = r' := by
  cases h with
  | zero =>
    cases h' with
    | zero => rfl
    | positive leads => exact absurd leads.pos (lt_irrefl 0)
  | positive leads nearest =>
    cases h' with
    | zero => exact absurd leads.pos (lt_irrefl 0)
    | positive leads' nearest' =>
      cases leads.eq leads'
      rw [nearest.eq nearest']

theorem Rounds.iff_eq (h : Rounds p q r) (r' : ℚ) : Rounds p q r' ↔ r' = r :=
  ⟨fun h' => h'.eq h, fun he => he ▸ h⟩

theorem exists_digitCount (hn : 0 < n) :
    ∃ k, digitCount n = k + 1 ∧ 10 ^ k ≤ n ∧ n < 10 ^ (k + 1) := by
  have hpos : 0 < digitCount n := Nat.length_toDigits_pos
  obtain ⟨k, hk⟩ := Nat.exists_eq_add_of_lt hpos
  rw [Nat.zero_add] at hk
  refine ⟨k, hk, ?_, ?_⟩
  · cases k with
    | zero =>
      rw [pow_zero]
      exact hn
    | succ k =>
      by_contra hlt
      have := (Nat.length_toDigits_le_iff (b := 10) (n := n) (by omega) k.succ_pos).mpr (by omega)
      rw [digitCount] at hk
      omega
  · exact (Nat.length_toDigits_le_iff (b := 10) (by omega) k.succ_pos).mp hk.le

theorem leads_leadingExponent (hn : 0 < num) (hd : 0 < den) :
    Leads (leadingExponent num den) (num / den) := by
  have hn' : (0 : ℚ) < num := Nat.cast_pos.mpr hn
  have hd' : (0 : ℚ) < den := Nat.cast_pos.mpr hd
  rw [leadingExponent]
  by_cases hle : den ≤ num
  · obtain ⟨k, hk, hlow, hhigh⟩ := exists_digitCount (Nat.div_pos hle hd)
    rw [Nat.le_div_iff_mul_le hd] at hlow
    rw [Nat.div_lt_iff_lt_mul hd] at hhigh
    have he : ((k + 1 : ℕ) : ℤ) - 1 = (k : ℕ) := by omega
    rw [if_pos hle, hk, he]
    constructor
    · rw [zpow_natCast, le_div_iff₀ hd']
      exact_mod_cast hlow
    · rw [← Nat.cast_succ, zpow_natCast, div_lt_iff₀ hd']
      exact_mod_cast hhigh
  · obtain ⟨k, hk, hlow, hhigh⟩ := exists_digitCount (n := (den - 1) / num)
      (Nat.div_pos (by omega) hn)
    rw [Nat.le_div_iff_mul_le hn] at hlow
    rw [Nat.div_lt_iff_lt_mul hn] at hhigh
    have he : -((k + 1 : ℕ) : ℤ) + 1 = -(k : ℕ) := by omega
    rw [if_neg hle, hk]
    constructor
    · rw [zpow_neg, zpow_natCast, ← one_div, div_le_div_iff₀ (by positivity) hd', one_mul]
      have : den ≤ num * 10 ^ (k + 1) := by rw [Nat.mul_comm]; omega
      exact_mod_cast this
    · rw [he, zpow_neg, zpow_natCast, ← one_div, div_lt_div_iff₀ hd' (by positivity), one_mul]
      have : num * 10 ^ k < den := by rw [Nat.mul_comm]; omega
      exact_mod_cast this

theorem nearest_atPlaces (hd : 0 < den) (places : ℤ) :
    Nearest (num / den * 10 ^ places) (atPlaces num den places) := by
  have hscaled : (num : ℚ) / den * 10 ^ places =
      (num * powerOfTen places.toNat : ℕ) / (den * powerOfTen (-places).toNat : ℕ) := by
    have hd' : (den : ℚ) ≠ 0 := Nat.cast_ne_zero.mpr hd.ne'
    obtain ⟨k, rfl | rfl⟩ := places.eq_nat_or_neg
    · simp [powerOfTen, div_mul_eq_mul_div]
    · simp [powerOfTen, div_mul_eq_div_mul_one_div]
  rw [hscaled]
  exact nearest_roundQuotient (Nat.mul_pos hd (Nat.pow_pos (by decide)))

theorem atPlaces_zero (hd : 0 < den) (places : ℤ) : atPlaces 0 den places = 0 := by
  have hzero : Nearest ((0 : ℕ) / den * 10 ^ places) 0 := by
    constructor <;> simp
  exact (nearest_atPlaces hd places).eq hzero

theorem zpow_mul_zpow {a b : ℤ} {k : ℕ} (h : a + b = k) :
    (10 : ℚ) ^ a * 10 ^ b = (10 ^ k : ℕ) := by
  rw [← zpow_add₀ (by norm_num), h, zpow_natCast, Nat.cast_pow, Nat.cast_ofNat]

namespace Scientific

variable {s : Scientific}

def value (s : Scientific) (p : ℕ) : ℚ :=
  s.digits * 10 ^ (s.exponent + 1 - p)

theorem value_mul_zpow (s : Scientific) (p : ℕ) :
    s.value p * 10 ^ ((p : ℤ) - 1 - s.exponent) = s.digits := by
  rw [value, mul_assoc, zpow_mul_zpow (k := 0) (by omega), pow_zero, Nat.cast_one, mul_one]

/-- The digits are `p` in number, or there is only a zero. -/
def Normal (s : Scientific) (p : ℕ) : Prop :=
  s = ⟨0, 0⟩ ∨ 10 ^ (p - 1) ≤ s.digits ∧ s.digits < 10 ^ p

theorem leads_value (hp : 0 < p) (hs : s.Normal p) :
    s.value p = 0 ∧ s.exponent = 0 ∨ Leads s.exponent (s.value p) := by
  obtain rfl | ⟨hlow, hhigh⟩ := hs
  · exact .inl ⟨by simp [value], rfl⟩
  refine .inr ?_
  have hunit : (0 : ℚ) < 10 ^ ((p : ℤ) - 1 - s.exponent) := by positivity
  constructor
  · rw [← mul_le_mul_iff_left₀ hunit, value_mul_zpow, zpow_mul_zpow (k := p - 1) (by omega)]
    exact Nat.cast_le.mpr hlow
  · rw [← mul_lt_mul_iff_left₀ hunit, value_mul_zpow, zpow_mul_zpow (k := p) (by omega)]
    exact Nat.cast_lt.mpr hhigh

end Scientific

theorem Leads.digits_le (hleads : Leads e q) (hp : 0 < p) (hn : Nearest (q * 10 ^ (p - 1 - e)) n) :
    10 ^ (p - 1) ≤ n ∧ n ≤ 10 ^ p := by
  have hunit : (0 : ℚ) < 10 ^ ((p : ℤ) - 1 - e) := by positivity
  refine ⟨hn.le_of_le ?_, hn.ge_of_ge ?_⟩
  · rw [← zpow_mul_zpow (a := e) (b := p - 1 - e) (by omega)]
    exact mul_le_mul_of_nonneg_right hleads.le hunit.le
  · rw [← zpow_mul_zpow (a := e + 1) (b := p - 1 - e) (by omega)]
    exact mul_le_mul_of_nonneg_right hleads.lt.le hunit.le

/-- After a carry there is one place less to round at, and a carry again. -/
theorem Nearest.carry (hp : 0 < p) (hn : Nearest (q * 10 ^ (p - 1 - e)) (10 ^ p)) :
    Nearest (q * 10 ^ (p - 1 - (e + 1))) (10 ^ (p - 1)) := by
  have hplaces : q * 10 ^ (p - 1 - (e + 1)) = q * 10 ^ (p - 1 - e) / 10 := by
    have he : (p : ℤ) - 1 - (e + 1) = p - 1 - e - 1 := by omega
    rw [he, zpow_sub_one₀ (by norm_num), mul_div_assoc, div_eq_mul_inv _ (10 : ℚ)]
  rw [hplaces]
  rw [← Nat.pow_pred_mul hp, Nat.mul_comm] at hn
  exact hn.div_ten

theorem Scientific.value_carry (hp : 0 < p) :
    (Scientific.mk (10 ^ (p - 1)) (e + 1)).value p = (10 ^ p : ℕ) * 10 ^ (e + 1 - p) := by
  have he : e + 1 + 1 - (p : ℤ) = e + 1 - p + 1 := by omega
  rw [Scientific.value, he, zpow_add_one₀ (by norm_num), ← Nat.pow_pred_mul hp]
  push_cast
  ring

/-- Rounding to the places that the digits end at gives the digits again, also after a carry, when
those are one place fewer. -/
theorem toScientific_spec (num : ℕ) (hd : 0 < den) (hp : 0 < p) :
    let s := toScientific num den p
    Rounds p (num / den) (s.value p) ∧ s.Normal p ∧
      atPlaces num den (p - 1 - s.exponent) = s.digits := by
  by_cases hzero : num = 0
  · subst hzero
    have hs : toScientific 0 den p = ⟨0, 0⟩ := if_pos rfl
    simp only [hs, Scientific.value, Nat.cast_zero, zero_div, zero_mul]
    exact ⟨.zero, .inl rfl, atPlaces_zero hd _⟩
  have hleads := leads_leadingExponent (Nat.pos_of_ne_zero hzero) hd
  rw [toScientific, if_neg hzero]
  generalize leadingExponent num den = e at *
  have hnear : Nearest (num / den * 10 ^ ((p : ℤ) - 1 - e)) _ := nearest_atPlaces hd (p - 1 - e)
  have hrounds := Rounds.positive hleads hnear
  obtain ⟨hlow, hhigh⟩ := hleads.digits_le hp hnear
  by_cases hcarry : atPlaces num den (p - 1 - e) = powerOfTen p
  · rw [if_pos hcarry]
    rw [hcarry, powerOfTen, Nat.pow_eq] at hnear hrounds
    rw [← Scientific.value_carry hp] at hrounds
    have hnormal : 10 ^ (p - 1) < 10 ^ p := Nat.pow_lt_pow_right (by norm_num) (by omega)
    exact ⟨hrounds, .inr ⟨le_rfl, hnormal⟩, (nearest_atPlaces hd _).eq (hnear.carry hp)⟩
  · rw [if_neg hcarry]
    exact ⟨hrounds, .inr ⟨hlow, lt_of_le_of_ne hhigh hcarry⟩, rfl⟩

end RemoteInspect.Decimal
