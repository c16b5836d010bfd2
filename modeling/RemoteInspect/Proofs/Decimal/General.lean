import RemoteInspect.Decimal.General
import RemoteInspect.Proofs.Decimal.Numeral
import RemoteInspect.Proofs.Decimal.Rounding

namespace RemoteInspect.Decimal

open Numeral (exponentChars fractionChars)

variable {num den p : ℕ} {s : Scientific}

theorem isDigit_toDigits {n : ℕ} {c : Char} (hc : c ∈ Nat.toDigits 10 n) : c.isDigit :=
  Nat.isDigit_of_mem_toDigits (by omega) (by omega) hc

theorem exists_dropTrailingZeros (cs : List Char) :
    ∃ k, cs = dropTrailingZeros cs ++ List.replicate k '0' := by
  let zeros : List Char := cs.reverse.takeWhile (· = '0')
  have hzeros : zeros = List.replicate zeros.length '0' :=
    List.eq_replicate_of_mem fun c hc =>
      of_decide_eq_true (List.all_eq_true.mp List.all_takeWhile c hc)
  refine ⟨zeros.length, ?_⟩
  rw [dropTrailingZeros, ← List.reverse_replicate, ← hzeros, ← List.reverse_append,
    List.takeWhile_append_dropWhile, List.reverse_reverse]

theorem getLast?_dropTrailingZeros (cs : List Char) :
    (dropTrailingZeros cs).getLast? ≠ some '0' := by
  rw [dropTrailingZeros, List.getLast?_reverse]
  intro h
  have hhead := List.head?_dropWhile_not (fun c => decide (c = '0')) cs.reverse
  rw [h] at hhead
  simp at hhead

theorem isDigit_padLeft {width : ℕ} {cs : List Char} (hcs : ∀ c ∈ cs, c.isDigit) {c : Char}
    (hc : c ∈ padLeft width cs) : c.isDigit := by
  obtain hc | hc := List.mem_append.mp hc
  · rw [List.eq_of_mem_replicate hc]
    rfl
  · exact hcs c hc

theorem length_padLeft (width : ℕ) (cs : List Char) :
    (padLeft width cs).length = max width cs.length := by
  rw [padLeft, List.length_append, List.length_replicate]
  omega

theorem ofDigitChars_padLeft (width n : ℕ) :
    Nat.ofDigitChars 10 (padLeft width (Nat.toDigits 10 n)) 0 = n := by
  rw [padLeft, Nat.ofDigitChars_append, Nat.ofDigitChars_replicate_zero, Nat.mul_zero,
    Nat.ofDigitChars_toDigits (by omega) (by omega)]

theorem exists_joinFraction (whole : Digits) {fraction : List Char}
    (hfraction : ∀ c ∈ fraction, c.isDigit) (exponent : Option (Bool × Digits)) :
    ∃ n : Numeral, n.negative = false ∧ n.whole = whole ∧ n.exponent = exponent ∧ n.Trimmed ∧
      n.chars = joinFraction whole.val fraction ++ exponentChars exponent ∧
      n.magnitude = Nat.ofDigitChars 10 (whole.val ++ fraction) 0 *
        10 ^ (n.scale - fraction.length) := by
  obtain ⟨k, hk⟩ := exists_dropTrailingZeros fraction
  have hlast := getLast?_dropTrailingZeros fraction
  have hdigits : ∀ c ∈ dropTrailingZeros fraction, c.isDigit := fun c hc =>
    hfraction c (hk ▸ List.mem_append_left _ hc)
  rw [joinFraction]
  generalize dropTrailingZeros fraction = kept at *
  subst hk
  have hvalue (scale : ℤ) :
      (Nat.ofDigitChars 10 (whole.val ++ (kept ++ List.replicate k '0')) 0 : ℚ) *
          10 ^ (scale - (kept ++ List.replicate k '0').length) =
        Nat.ofDigitChars 10 (whole.val ++ kept) 0 * 10 ^ (scale - kept.length) := by
    rw [← List.append_assoc, List.length_append, List.length_replicate]
    exact ofDigitChars_append_zeros _ _ k scale
  simp only [hvalue]
  cases kept with
  | nil => exact ⟨⟨false, whole, none, exponent⟩, rfl, rfl, rfl, nofun, rfl, rfl⟩
  | cons c cs =>
    let d : Digits := ⟨c :: cs, List.cons_ne_nil c cs, hdigits⟩
    refine ⟨⟨false, whole, some d, exponent⟩, rfl, rfl, rfl, ?_, ?_, rfl⟩
    · rintro d' ⟨⟩
      exact hlast
    · simp [Numeral.chars, Numeral.signChars, fractionChars, d]

theorem exists_fixedForm (num den places : ℕ) :
    ∃ n : Numeral, n.negative = false ∧ n.exponent = none ∧ n.Trimmed ∧
      n.chars = fixedForm num den places ∧
      n.magnitude = atPlaces num den places * 10 ^ (-places : ℤ) := by
  let cs : List Char := padLeft (places + 1) (Nat.toDigits 10 (atPlaces num den places))
  have hcs : ∀ c ∈ cs, c.isDigit := fun c => isDigit_padLeft fun c => isDigit_toDigits
  have hlength : places + 1 ≤ cs.length := (length_padLeft ..).symm ▸ Nat.le_max_left ..
  obtain ⟨n, hnegative, -, hexponent, htrimmed, hchars, hmagnitude⟩ :=
    exists_joinFraction (.take (cs.length - places) cs hcs (by omega) (by omega))
      (fun c hc => hcs c (List.mem_of_mem_drop hc)) none
  refine ⟨n, hnegative, hexponent, htrimmed, hchars.trans (List.append_nil _), ?_⟩
  have hscale : n.scale - (cs.drop (cs.length - places)).length = -places := by
    have hzero : n.scale = 0 := by rw [Numeral.scale, hexponent]
    rw [hzero, List.length_drop]
    omega
  rw [hmagnitude, hscale, Digits.take, List.take_append_drop, ofDigitChars_padLeft]

theorem digitCount_eq {n k : ℕ} (hlow : 10 ^ k ≤ n) (hhigh : n < 10 ^ (k + 1)) :
    digitCount n = k + 1 := by
  obtain ⟨k', hk', hlow', hhigh'⟩ := exists_digitCount (lt_of_lt_of_le (by positivity) hlow)
  have hle : k < k' + 1 := (Nat.pow_lt_pow_iff_right (by omega)).mp (hlow.trans_lt hhigh')
  have hge : k' < k + 1 := (Nat.pow_lt_pow_iff_right (by omega)).mp (hlow'.trans_lt hhigh)
  omega

theorem exists_exponentChars (X : ℤ) :
    ∃ d : Digits, d.val = padLeft 2 (Nat.toDigits 10 X.natAbs) ∧ 2 ≤ d.val.length ∧
      ∀ n : Numeral, n.exponent = some (decide (X < 0), d) → n.scale = X := by
  have hlength : 2 ≤ (padLeft 2 (Nat.toDigits 10 X.natAbs)).length :=
    (length_padLeft ..).symm ▸ Nat.le_max_left ..
  let d : Digits := ⟨padLeft 2 (Nat.toDigits 10 X.natAbs), List.ne_nil_of_length_pos (by omega),
    fun c => isDigit_padLeft fun c => isDigit_toDigits⟩
  have hd : d.value = X.natAbs := ofDigitChars_padLeft ..
  refine ⟨d, rfl, hlength, fun n hexponent => ?_⟩
  rw [Numeral.scale, hexponent]
  by_cases hneg : X < 0
  · simp only [hneg, decide_true, ↓reduceIte, hd]
    omega
  · simp only [hneg, decide_false, Bool.false_eq_true, ↓reduceIte, hd]
    omega

theorem exists_exponentForm (hp : 0 < p) (hlow : 10 ^ (p - 1) ≤ s.digits)
    (hhigh : s.digits < 10 ^ p) :
    ∃ n : Numeral, n.negative = false ∧ n.Trimmed ∧ n.chars = exponentForm s ∧
      n.magnitude = s.value p ∧ n.scale = s.exponent ∧ n.whole.val.length = 1 ∧
      ∃ negative d, n.exponent = some (negative, d) ∧ 2 ≤ d.val.length := by
  let cs : List Char := Nat.toDigits 10 s.digits
  have hlength : cs.length = p := by
    have hcount := digitCount_eq hlow (by rwa [Nat.sub_add_cancel hp])
    rwa [Nat.sub_add_cancel hp] at hcount
  have hcs : ∀ c ∈ cs, c.isDigit := fun c => isDigit_toDigits
  obtain ⟨d, hd, htwo, hexponentScale⟩ := exists_exponentChars s.exponent
  obtain ⟨n, hnegative, hwhole, hexponent, htrimmed, hchars, hmagnitude⟩ :=
    exists_joinFraction (.take 1 cs hcs one_pos (by omega))
      (fun c hc => hcs c (List.mem_of_mem_drop hc)) (some (decide (s.exponent < 0), d))
  have hscale := hexponentScale n hexponent
  refine ⟨n, hnegative, htrimmed, ?_, ?_, hscale, ?_, _, d, hexponent, htwo⟩
  · rw [hchars, exponentForm, exponentChars, hd]
    simp only [decide_eq_true_eq]
    rfl
  · have hplaces : s.exponent - ((cs.drop 1).length : ℕ) = s.exponent + 1 - p := by
      rw [List.length_drop, hlength]
      omega
    rw [hmagnitude, hscale, hplaces, Digits.take, List.take_append_drop,
      Nat.ofDigitChars_toDigits (by omega) (by omega), Scientific.value]
  · rw [hwhole, Digits.take, List.length_take, hlength]
    omega

/-- `n` stands for `q` at `p` significant digits, and `X` is the exponent of that. -/
structure Numeral.General (p : ℕ) (q : ℚ) (X : ℤ) (n : Numeral) : Prop where
  rounds : ∀ r, Rounds p q r ↔ r = n.magnitude
  leads : n.magnitude = 0 ∧ X = 0 ∨ Leads X n.magnitude
  fixed_iff : n.exponent = none ↔ -4 ≤ X ∧ X < p
  scientific : ∀ negative d, n.exponent = some (negative, d) →
    n.scale = X ∧ n.whole.val.length = 1 ∧ 2 ≤ d.val.length

namespace Numeral.General

variable {n : Numeral} {q : ℚ} {X : ℤ}

theorem withSign (h : n.General p q X) (negative : Bool) : (n.withSign negative).General p q X :=
  ⟨h.rounds, h.leads, h.fixed_iff, h.scientific⟩

theorem marked (h : n.General p q X) : n.marked.General p q X := by
  constructor
  · simpa using h.rounds
  · simpa using h.leads
  · simpa using h.fixed_iff
  · simpa using h.scientific

end Numeral.General

theorem exists_generalForm (num : ℕ) (hd : 0 < den) (hp : 0 < p) :
    let X := (toScientific num den p).exponent
    ∃ n : Numeral, n.negative = false ∧ n.Trimmed ∧ n.chars = generalForm num den p ∧
      n.General p (num / den) X ∧
      atPlaces num den (p - 1 - X) = n.magnitude * 10 ^ ((p : ℤ) - 1 - X) := by
  obtain ⟨hrounds, hnormal, hagain⟩ := toScientific_spec num hd hp
  have hleads := Scientific.leads_value hp hnormal
  rw [generalForm]
  generalize toScientific num den p = s at *
  intro X
  by_cases hfixed : leastFixedExponent ≤ s.exponent ∧ s.exponent < p
  · rw [if_pos hfixed]
    obtain ⟨n, hnegative, hexponent, htrimmed, hchars, hmagnitude⟩ :=
      exists_fixedForm num den (p - 1 - s.exponent).toNat
    have hnat : ((p - 1 - s.exponent).toNat : ℤ) = p - 1 - s.exponent := by omega
    have hvalue : n.magnitude = s.value p := by
      have hscale : -((p : ℤ) - 1 - s.exponent) = s.exponent + 1 - p := by omega
      rw [hmagnitude, hnat, hagain, hscale, Scientific.value]
    refine ⟨n, hnegative, htrimmed, hchars, ?_, ?_⟩
    · rw [← hvalue] at hrounds hleads
      exact ⟨hrounds.iff_eq, hleads, iff_of_true hexponent hfixed,
        fun _ _ h => by simp [hexponent] at h⟩
    · rw [hagain, hvalue, Scientific.value_mul_zpow]
  · rw [if_neg hfixed]
    obtain rfl | ⟨hlow, hhigh⟩ := hnormal
    · exact absurd ⟨by decide, Int.natCast_pos.mpr hp⟩ hfixed
    obtain ⟨n, hnegative, htrimmed, hchars, hvalue, hscale, hwhole, _, d, hexponent, htwo⟩ :=
      exists_exponentForm hp hlow hhigh
    refine ⟨n, hnegative, htrimmed, hchars, ?_, ?_⟩
    · rw [← hvalue] at hrounds hleads
      refine ⟨hrounds.iff_eq, hleads, iff_of_false (by simp [hexponent]) hfixed,
        fun negative d' h => ?_⟩
      obtain ⟨-, rfl⟩ := Prod.mk.inj (Option.some.inj (hexponent.symm.trans h))
      exact ⟨hscale, hwhole, htwo⟩
    · rw [hagain, hvalue, Scientific.value_mul_zpow]

end RemoteInspect.Decimal
