import Mathlib.Algebra.Order.Field.Basic
import Mathlib.Algebra.Order.Ring.Rat
import Mathlib.Data.Rat.Cast.Defs
import Mathlib.Tactic.NormNum
import Mathlib.Tactic.Ring

namespace RemoteInspect.Decimal

def Digits : Type := { cs : List Char // cs ≠ [] ∧ ∀ c ∈ cs, c.isDigit }

/-- A sign, digits around a point and an exponent, which has a sign of its own. -/
structure Numeral where
  negative : Bool
  whole : Digits
  fraction : Option Digits
  exponent : Option (Bool × Digits)

namespace Digits

def zero : Digits := ⟨['0'], List.cons_ne_nil _ _, List.all_eq_true.mp rfl⟩

def value (d : Digits) : ℕ := Nat.ofDigitChars 10 d.val 0

def take (k : ℕ) (cs : List Char) (hcs : ∀ c ∈ cs, c.isDigit) (hk : 0 < k)
    (hlength : 0 < cs.length) : Digits :=
  ⟨cs.take k, List.ne_nil_of_length_pos (by rw [List.length_take]; omega),
    fun c hc => hcs c (List.mem_of_mem_take hc)⟩

theorem exists_cons (d : Digits) : ∃ c cs, d.val = c :: cs ∧ c.isDigit := by
  obtain ⟨cs, hne, hdigits⟩ := d
  cases cs with
  | nil => exact absurd rfl hne
  | cons c cs => exact ⟨c, cs, rfl, hdigits c List.mem_cons_self⟩

end Digits

theorem append_split {α : Type} {p : α → Bool} {front front' rest rest' : List α}
    (hfront : ∀ a ∈ front, p a) (hfront' : ∀ a ∈ front', p a)
    (hrest : ∀ a ∈ rest.head?, p a = false) (hrest' : ∀ a ∈ rest'.head?, p a = false)
    (h : front ++ rest = front' ++ rest') : front = front' ∧ rest = rest' := by
  have hends : ∀ {front rest : List α}, (∀ a ∈ front, p a) → (∀ a ∈ rest.head?, p a = false) →
      (front ++ rest).takeWhile p = front := by
    intro front rest hfront hrest
    rw [List.takeWhile_append_of_pos hfront]
    cases rest with
    | nil => simp
    | cons a rest => simp [hrest a rfl]
  have heq : front = front' := by rw [← hends hfront hrest, h, hends hfront' hrest']
  rw [heq] at h
  exact ⟨heq, List.append_cancel_left h⟩

theorem Digits.eq_of_append {d d' : Digits} {rest rest' : List Char}
    (hrest : ∀ c ∈ rest.head?, c.isDigit = false) (hrest' : ∀ c ∈ rest'.head?, c.isDigit = false)
    (h : d.val ++ rest = d'.val ++ rest') : d = d' ∧ rest = rest' := by
  obtain ⟨hd, hr⟩ := append_split d.property.2 d'.property.2 hrest hrest' h
  exact ⟨Subtype.ext hd, hr⟩

theorem ofDigitChars_append_zeros (cs : List Char) (places k : ℕ) (scale : ℤ) :
    (Nat.ofDigitChars 10 (cs ++ List.replicate k '0') 0 : ℚ) * 10 ^ (scale - (places + k : ℕ)) =
      Nat.ofDigitChars 10 cs 0 * 10 ^ (scale - places) := by
  have hscale : scale - places = scale - (places + k : ℕ) + k := by push_cast; ring
  rw [Nat.ofDigitChars_append, Nat.ofDigitChars_replicate_zero, hscale, zpow_add₀ (by norm_num),
    zpow_natCast]
  push_cast
  ring

namespace Numeral

def signChars (negative : Bool) : List Char := if negative then ['-'] else []

def fractionChars : Option Digits → List Char
  | none => []
  | some d => '.' :: d.val

def exponentChars : Option (Bool × Digits) → List Char
  | none => []
  | some (negative, d) => 'e' :: (if negative then '-' else '+') :: d.val

variable {n m : Numeral}

def chars (n : Numeral) : List Char :=
  signChars n.negative ++ (n.whole.val ++ (fractionChars n.fraction ++ exponentChars n.exponent))

def text (n : Numeral) : String := String.ofList n.chars

def decimals (n : Numeral) : List Char :=
  match n.fraction with
  | none => []
  | some d => d.val

/-- The power of ten that the digits around the point are multiplied by. -/
def scale (n : Numeral) : ℤ :=
  match n.exponent with
  | none => 0
  | some (negative, d) => if negative then -d.value else d.value

def magnitude (n : Numeral) : ℚ :=
  Nat.ofDigitChars 10 (n.whole.val ++ n.decimals) 0 * 10 ^ (n.scale - n.decimals.length)

theorem exponentChars_injective {e e' : Option (Bool × Digits)}
    (h : exponentChars e = exponentChars e') : e = e' := by
  rcases e with _ | ⟨negative, d⟩ <;> rcases e' with _ | ⟨negative', d'⟩ <;>
    simp only [exponentChars, List.cons.injEq, true_and, reduceCtorEq] at h
  · rfl
  · obtain rfl : d = d' := Subtype.ext h.2
    cases negative <;> cases negative' <;> simp at h ⊢

theorem isDigit_head_exponentChars (e : Option (Bool × Digits)) :
    ∀ c ∈ (exponentChars e).head?, c.isDigit = false := by
  rcases e with _ | ⟨negative, d⟩
  · simp [exponentChars]
  · rintro c ⟨⟩
    rfl

theorem isDigit_head_fractionChars (f : Option Digits) (e : Option (Bool × Digits)) :
    ∀ c ∈ (fractionChars f ++ exponentChars e).head?, c.isDigit = false := by
  cases f with
  | none => exact isDigit_head_exponentChars e
  | some d =>
    rintro c ⟨⟩
    rfl

theorem fractionChars_append_injective {f f' : Option Digits} {e e' : Option (Bool × Digits)}
    (h : fractionChars f ++ exponentChars e = fractionChars f' ++ exponentChars e') :
    f = f' ∧ e = e' := by
  cases f with
  | none =>
    cases f' with
    | none => exact ⟨rfl, exponentChars_injective h⟩
    | some d' => rcases e with _ | ⟨negative, d⟩ <;> cases h
  | some d =>
    cases f' with
    | none => rcases e' with _ | ⟨negative, d'⟩ <;> cases h
    | some d' =>
      obtain ⟨hd, he⟩ := Digits.eq_of_append (isDigit_head_exponentChars e)
        (isDigit_head_exponentChars e') (List.cons.inj h).2
      exact ⟨congrArg some hd, exponentChars_injective he⟩

theorem text_injective (h : n.text = m.text) : n = m := by
  obtain ⟨negative, whole, fraction, exponent⟩ := n
  obtain ⟨negative', whole', fraction', exponent'⟩ := m
  replace h := String.ofList_injective h
  simp only [chars] at h
  have hsign : negative = negative' := by
    obtain ⟨c, cs, hc, hdigit⟩ := whole.exists_cons
    obtain ⟨c', cs', hc', hdigit'⟩ := whole'.exists_cons
    have hhead := congrArg List.head? h
    cases negative <;> cases negative' <;> simp [signChars, hc, hc'] at hhead ⊢
    · subst hhead
      cases hdigit
    · subst hhead
      cases hdigit'
  subst hsign
  obtain ⟨rfl, hrest⟩ := Digits.eq_of_append (isDigit_head_fractionChars fraction exponent)
    (isDigit_head_fractionChars fraction' exponent') (List.append_cancel_left h)
  obtain ⟨rfl, rfl⟩ := fractionChars_append_injective hrest
  rfl

def withSign (n : Numeral) (negative : Bool) : Numeral := { n with negative }

def Trimmed (n : Numeral) : Prop :=
  ∀ d, n.fraction = some d → d.val.getLast? ≠ some '0'

/-- The text has only digits and a sign, so that it reads as an integer. -/
def Bare (n : Numeral) : Prop := ∀ c ∈ n.chars, c = '-' ∨ c.isDigit

instance : Decidable n.Bare := List.decidableBAll _ n.chars

theorem bare_iff : n.Bare ↔ n.fraction = none ∧ n.exponent = none := by
  constructor
  · intro h
    refine ⟨Option.eq_none_iff_forall_ne_some.mpr fun d hd => ?_,
      Option.eq_none_iff_forall_ne_some.mpr fun e he => ?_⟩
    · have := h '.' (by simp [chars, hd, fractionChars])
      revert this
      decide
    · have := h 'e' (by simp [chars, he, exponentChars])
      revert this
      decide
  · rintro ⟨hfraction, hexponent⟩ c hc
    simp only [chars, hfraction, hexponent, fractionChars, exponentChars, List.append_nil,
      List.mem_append] at hc
    obtain hc | hc := hc
    · cases hnegative : n.negative <;> simp [signChars, hnegative] at hc
      exact .inl hc
    · exact .inr (n.whole.property.2 c hc)

def marked (n : Numeral) : Numeral :=
  if n.Bare then { n with fraction := some .zero } else n

@[simp] theorem marked_negative (n : Numeral) : n.marked.negative = n.negative := by
  rw [marked, apply_ite negative, ite_self]

@[simp] theorem marked_whole (n : Numeral) : n.marked.whole = n.whole := by
  rw [marked, apply_ite whole, ite_self]

@[simp] theorem marked_exponent (n : Numeral) : n.marked.exponent = n.exponent := by
  rw [marked, apply_ite exponent, ite_self]

theorem chars_marked (n : Numeral) :
    n.marked.chars = if n.Bare then n.chars ++ ['.', '0'] else n.chars := by
  by_cases h : n.Bare
  · obtain ⟨hfraction, hexponent⟩ := bare_iff.mp h
    simp [marked, h, chars, hfraction, hexponent, fractionChars, exponentChars, Digits.zero]
  · simp [marked, h]

@[simp] theorem scale_marked (n : Numeral) : n.marked.scale = n.scale := by
  rw [scale, scale, marked_exponent]

@[simp] theorem magnitude_marked (n : Numeral) : n.marked.magnitude = n.magnitude := by
  by_cases h : n.Bare
  · obtain ⟨hfraction, hexponent⟩ := bare_iff.mp h
    have hzero := ofDigitChars_append_zeros n.whole.val 0 1 n.scale
    simpa [marked, h, magnitude, decimals, hfraction, scale, hexponent, Digits.zero] using hzero
  · simp [marked, h]

end Numeral

end RemoteInspect.Decimal
