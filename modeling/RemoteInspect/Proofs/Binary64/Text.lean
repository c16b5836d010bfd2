import RemoteInspect.Proofs.Binary64
import RemoteInspect.Proofs.Decimal.General

namespace RemoteInspect

open Decimal (Numeral Rounds toScientific atPlaces)

namespace Binary64

theorem markFraction_chars (n : Numeral) : markFraction n.chars = n.marked.chars := by
  rw [markFraction, Numeral.chars_marked]
  by_cases h : n.Bare
  · rw [if_pos h, if_pos (by simpa [Numeral.Bare] using h)]
  · rw [if_neg h, if_neg (by simpa [Numeral.Bare] using h)]

/-- The text of a finite number reads as one numeral only, which is that number at 14 significant
digits, with its sign. The exponent after rounding decides the form. No zero ends the fraction, but
a text of digits alone gets a fraction of one zero. Where the fixed form rounds the number itself at
the places left for decimals, it finds the digits that the exponent was read from. -/
theorem text_general {x : Binary64} (hx : x.isFinite) :
    let X := (toScientific x.numerator x.denominator precision).exponent
    ∃ n : Numeral, n.Trimmed ∧ (∀ m : Numeral, x.text = m.text ↔ m = n.marked) ∧
      n.marked.negative = x.isNegative ∧ n.marked.General precision x.magnitude X ∧
      atPlaces x.numerator x.denominator (precision - 1 - X) =
        n.marked.magnitude * 10 ^ ((precision : ℤ) - 1 - X) := by
  intro X
  obtain ⟨n, hnegative, htrimmed, hchars, hgeneral, hagain⟩ :=
    Decimal.exists_generalForm x.numerator x.denominator_pos (show 0 < precision by decide)
  rw [← magnitude_eq_div] at hgeneral
  have htext : x.text = (n.withSign x.isNegative).marked.text := by
    have hmagnitude : x.magnitudeText = n.chars := (if_pos hx).trans hchars.symm
    have hsigned : (if x.isNegative then '-' :: n.chars else n.chars) =
        (n.withSign x.isNegative).chars := by
      rw [Numeral.chars, Numeral.chars, hnegative]
      cases h : x.isNegative <;> rfl
    simp only [text, hmagnitude, hsigned, hx, ↓reduceIte, markFraction_chars]
    rfl
  refine ⟨n.withSign x.isNegative, htrimmed, fun m => ⟨fun hm => ?_, ?_⟩,
    Numeral.marked_negative _, (hgeneral.withSign _).marked, ?_⟩
  · exact Numeral.text_injective (hm.symm.trans htext)
  · rintro rfl
    exact htext
  · rw [Numeral.magnitude_marked]
    exact hagain

/-- The number next to `1e-4`, on the side of zero, has a smaller exponent than that before it is
rounded. The carry puts it into the fixed form. -/
theorem text_general_carry :
    let x : Binary64 := ⟨0xBF1A36E2EB1C432C⟩
    x.isFinite ∧ x.text = "-0.0001" ∧ Rounds 14 x.magnitude (1 / 10 ^ 4) ∧
      Decimal.leadingExponent x.numerator x.denominator = -5 := by
  intro x
  have hx : x.isFinite := by decide
  have htext : x.text = "-0.0001" := by decide +kernel
  obtain ⟨n, -, hreads, -, hgeneral, -⟩ := text_general hx
  let fraction : Decimal.Digits :=
    ⟨['0', '0', '0', '1'], List.cons_ne_nil _ _, List.all_eq_true.mp rfl⟩
  let m : Numeral := ⟨true, .zero, some fraction, none⟩
  have hvalue : m.magnitude = 1 / 10 ^ 4 := by
    have hdigits : Nat.ofDigitChars 10 (m.whole.val ++ m.decimals) 0 = 1 := rfl
    have hscale : m.scale - m.decimals.length = -(4 : ℕ) := rfl
    rw [Numeral.magnitude, hdigits, hscale, zpow_neg, zpow_natCast, Nat.cast_one, one_div, one_mul]
  rw [← (hreads m).mp htext] at hgeneral
  exact ⟨hx, htext, (hgeneral.rounds _).mpr hvalue.symm, by decide +kernel⟩

example : text ⟨0x8000000000000000⟩ = "-0.0" := by decide +kernel

end Binary64

end RemoteInspect
