import RemoteInspect.Proofs.Decimal.General
import RemoteInspect.Proofs.Binary64
import RemoteInspect.Proofs.Text.Quoted
import RemoteInspect.Scalar

namespace RemoteInspect

namespace Text

def isNumeric (c : Char) : Bool :=
  c.isDigit || c = '-' || c = '+' || c = '.' || c = 'e'

/-- A text that reads as an integer has nothing but digits and a sign. -/
def isBare (cs : List Char) : Bool :=
  cs.all fun c => c = '-' ∨ c.isDigit

theorem isNumeric_of_isDigit {c : Char} (h : c.isDigit) : isNumeric c := by
  simp [isNumeric, h]

theorem isNumeric_of_isBare {cs : List Char} (h : isBare cs) : ∀ c ∈ cs, isNumeric c := by
  intro c hc
  have hbare := List.all_eq_true.mp h c hc
  simp only [decide_eq_true_eq] at hbare
  obtain rfl | hdigit := hbare
  · rfl
  · exact isNumeric_of_isDigit hdigit

end Text

open Text (isNumeric isBare isNumeric_of_isBare isNumeric_of_isDigit)

theorem Decimal.Numeral.isNumeric_chars (n : Numeral) : ∀ c ∈ n.chars, isNumeric c := by
  have hdigits : ∀ d : Digits, ∀ c ∈ d.val, isNumeric c :=
    fun d c hc => isNumeric_of_isDigit (d.property.2 c hc)
  have hsign : ∀ c ∈ signChars n.negative, isNumeric c := by
    cases n.negative <;> simp [signChars, isNumeric]
  have hfraction : ∀ c ∈ fractionChars n.fraction, isNumeric c := by
    cases n.fraction with
    | none => simp [fractionChars]
    | some d => simpa [fractionChars, isNumeric] using hdigits d
  have hexponent : ∀ c ∈ exponentChars n.exponent, isNumeric c := by
    cases n.exponent with
    | none => simp [exponentChars]
    | some e => cases h : e.1 <;> simpa [exponentChars, h, isNumeric] using hdigits e.2
  simp only [chars, List.forall_mem_append]
  exact ⟨hsign, hdigits n.whole, hfraction, hexponent⟩

namespace Binary64

variable {x : Binary64}

theorem isBare_markFraction (cs : List Char) : isBare (markFraction cs) = false := by
  rw [markFraction]
  split
  · simp [isBare]
  · rename_i h
    simpa [isBare] using h

theorem isNumeric_markFraction {cs : List Char} (h : ∀ c ∈ cs, isNumeric c) :
    ∀ c ∈ markFraction cs, isNumeric c := by
  rw [markFraction]
  split
  · rw [List.forall_mem_append]
    exact ⟨h, by simp [isNumeric]⟩
  · exact h

theorem isNumeric_magnitudeText (hx : x.isFinite) : ∀ c ∈ x.magnitudeText, isNumeric c := by
  obtain ⟨n, -, -, hchars, -⟩ :=
    Decimal.exists_generalForm x.numerator x.denominator_pos (show 0 < precision by decide)
  rw [magnitudeText, if_pos hx, ← hchars]
  exact n.isNumeric_chars

theorem text_of_isFinite (hx : x.isFinite) :
    (∀ c ∈ x.text.toList, isNumeric c) ∧ isBare x.text.toList = false := by
  have hsigned : ∀ c ∈ (if x.isNegative then '-' :: x.magnitudeText else x.magnitudeText),
      isNumeric c := by
    split
    · exact List.forall_mem_cons.mpr ⟨by decide, isNumeric_magnitudeText hx⟩
    · exact isNumeric_magnitudeText hx
  simp only [text, hx, ↓reduceIte, String.toList_ofList]
  exact ⟨isNumeric_markFraction hsigned, isBare_markFraction _⟩

theorem text_of_not_isFinite (hx : x.isFinite = false) :
    x.text ∈ ["nan", "-nan", "inf", "-inf"] := by
  simp only [text, magnitudeText, hx, Bool.false_eq_true, ↓reduceIte]
  cases x.isNegative <;> cases x.isNaN <;> decide

end Binary64

namespace Scalar

/-- The kinds of scalars, with integers and floats apart. -/
inductive Variant
  | nil | boolean | integer | float | string | pointer
deriving DecidableEq, Repr

def variant : Scalar → Variant
  | nil => .nil
  | boolean _ => .boolean
  | integer _ => .integer
  | float _ => .float
  | string _ => .string
  | pointer _ => .pointer

def Variant.ofText : List Char → Variant
  | '"' :: _ => .string
  | 'u' :: _ => .pointer
  | 't' :: _ => .boolean
  | 'f' :: _ => .boolean
  | ['n', 'i', 'l'] => .nil
  | cs => if isBare cs then .integer else .float

theorem Variant.ofText_of_isNumeric {cs : List Char} (h : ∀ c ∈ cs, isNumeric c) :
    ofText cs = if isBare cs then .integer else .float := by
  have hhead : ∀ d rest, isNumeric d = false → cs ≠ d :: rest := by
    rintro d rest hd rfl
    cases (h d List.mem_cons_self).symm.trans hd
  rw [ofText]
  · exact fun rest => hhead _ _ rfl
  · exact fun rest => hhead _ _ rfl
  · exact fun rest => hhead _ _ rfl
  · exact fun rest => hhead _ _ rfl
  · exact hhead _ _ rfl

theorem isBare_integer (i : Int64) : isBare (toString i.toInt).toList := by
  have hnat : ∀ n : Nat, isBare n.repr.toList := fun n =>
    List.all_eq_true.mpr fun c hc => by simp [Text.isDigit_repr c hc]
  change isBare i.toInt.repr.toList
  rw [Int.repr_eq_if]
  split
  · exact hnat _
  · rw [String.toList_append, isBare, List.all_append, Bool.and_eq_true]
    exact ⟨by decide, hnat _⟩

theorem variant_quoted (s : Scalar) : Variant.ofText s.quoted.toList = s.variant := by
  cases s with
  | nil => rfl
  | boolean b => cases b <;> rfl
  | integer i =>
    have hbare := isBare_integer i
    simp only [quoted, text, variant, Variant.ofText_of_isNumeric (isNumeric_of_isBare hbare),
      hbare, ↓reduceIte]
  | float x =>
    cases hx : x.isFinite with
    | true =>
      obtain ⟨hnumeric, hbare⟩ := Binary64.text_of_isFinite hx
      simp [quoted, text, variant, Variant.ofText_of_isNumeric hnumeric, hbare]
    | false =>
      have hread : ∀ t ∈ ["nan", "-nan", "inf", "-inf"], Variant.ofText t.toList = .float := by
        decide
      exact hread _ (Binary64.text_of_not_isFinite hx)
  | string bytes => simp [quoted, Text.quote, Variant.ofText, variant]
  | pointer p =>
    simp [quoted, text, String.toList_append, Variant.ofText, variant]

inductive LooksAlike : Scalar → Scalar → Prop
  | same (s : Scalar) : LooksAlike s s
  | rounded {x y : Binary64} (digits : x.text = y.text) : LooksAlike (.float x) (.float y)
  | replaced {bytes others : List UInt8} (read : Text.decode bytes = Text.decode others) :
      LooksAlike (.string bytes) (.string others)

variable {s s' : Scalar}

theorem LooksAlike.quoted_eq (h : LooksAlike s s') : s.quoted = s'.quoted := by
  cases h with
  | same => rfl
  | rounded digits => exact digits
  | replaced read => rw [quoted, quoted, read]

theorem looksAlike_of_quoted_eq (h : s.quoted = s'.quoted) : LooksAlike s s' := by
  have hvariant : s.variant = s'.variant := by rw [← variant_quoted, h, variant_quoted]
  cases s <;> cases s' <;> try cases hvariant
  case nil => exact .same _
  case boolean b b' =>
    have hb : b = b' := by
      cases b <;> cases b' <;> first | rfl | exact absurd h (by decide)
    exact hb ▸ .same _
  case integer i j =>
    have hi : i = j := Int64.toInt_inj.mp (Text.intRepr_injective h)
    exact hi ▸ .same _
  case float => exact .rounded h
  case string => exact .replaced (Text.quote_injective (String.ofList_injective h))
  case pointer p q =>
    have haddress := Text.address_injective ((String.append_right_inj _).mp h)
    obtain rfl : p = q := UInt64.toNat_inj.mp haddress
    exact .same _

theorem quoted_eq_iff : s.quoted = s'.quoted ↔ LooksAlike s s' :=
  ⟨looksAlike_of_quoted_eq, LooksAlike.quoted_eq⟩

theorem newline_notMem_quoted (s : Scalar) : '\n' ∉ s.quoted.toList := by
  have hnumeric : ∀ {cs : List Char}, (∀ c ∈ cs, isNumeric c) → '\n' ∉ cs := by
    intro cs h hn
    cases h _ hn
  cases s with
  | nil => decide
  | boolean b => cases b <;> decide
  | integer i => exact hnumeric (isNumeric_of_isBare (isBare_integer i))
  | float x =>
    cases hx : x.isFinite with
    | true => exact hnumeric (Binary64.text_of_isFinite hx).1
    | false =>
      have hline : ∀ t ∈ ["nan", "-nan", "inf", "-inf"], '\n' ∉ t.toList := by decide
      exact hline _ (Binary64.text_of_not_isFinite hx)
  | string bytes => simpa [quoted] using Text.newline_notMem_quote (Text.decode bytes)
  | pointer p =>
    have haddress : '\n' ∉ Text.hexDigits p.toNat := Text.hex_notMem (by decide)
    simp [quoted, text, Text.address, haddress]

end Scalar

end RemoteInspect
