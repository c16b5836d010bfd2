import Mathlib.Data.List.Nodup
import RemoteInspect.Proofs.Decimal.Numeral
import RemoteInspect.Text.Quoted

namespace RemoteInspect.Text

theorem append_cons_split {α : Type} [DecidableEq α] {a : α} {front front' rest rest' : List α}
    (hfront : a ∉ front) (hfront' : a ∉ front') (h : front ++ a :: rest = front' ++ a :: rest') :
    front = front' ∧ rest = rest' := by
  have hother : ∀ {l : List α}, a ∉ l → ∀ b ∈ l, decide (b ≠ a) = true := by
    rintro l hl b hb
    exact decide_eq_true fun he => hl (he ▸ hb)
  obtain ⟨heq, hrest⟩ := Decimal.append_split (hother hfront) (hother hfront') (by simp) (by simp) h
  exact ⟨heq, (List.cons.inj hrest).2⟩

theorem isDigit_repr {n : Nat} : ∀ c ∈ n.repr.toList, c.isDigit := by
  intro c hc
  rw [Nat.toList_repr] at hc
  exact Nat.isDigit_of_mem_toDigits (by decide) (by decide) hc

theorem toDigits_injective {m n : Nat} (h : Nat.toDigits 10 m = Nat.toDigits 10 n) : m = n := by
  rw [← Nat.ofDigitChars_toDigits (b := 10) (n := m) (by decide) (by decide), h,
    Nat.ofDigitChars_toDigits (by decide) (by decide)]

theorem natRepr_injective {m n : Nat} (h : m.repr = n.repr) : m = n := by
  apply toDigits_injective
  rw [← Nat.toList_repr, h, Nat.toList_repr]

theorem intRepr_injective {i j : Int} (h : i.repr = j.repr) : i = j := by
  have hsign : ∀ {m n : Nat}, m.repr ≠ "-" ++ n.repr := by
    intro m n h
    have hdash : '-' ∈ m.repr.toList := by simp [h]
    cases isDigit_repr _ hdash
  rw [Int.repr_eq_if, Int.repr_eq_if] at h
  split at h <;> split at h
  · have := natRepr_injective h
    omega
  · exact absurd h hsign
  · exact absurd h.symm hsign
  · have := natRepr_injective ((String.append_right_inj _).mp h)
    omega

def hexAlphabet : List Char := (List.range 16).map Nat.digitChar

theorem digitChar_mem_hexAlphabet {d : Nat} (hd : d < 16) : d.digitChar ∈ hexAlphabet :=
  List.mem_map_of_mem (List.mem_range.mpr hd)

theorem digitChar_injective {c d : Nat} (hc : c < 16) (hd : d < 16)
    (h : c.digitChar = d.digitChar) : c = d := by
  have hnodup : hexAlphabet.Nodup := by decide
  exact List.inj_on_of_nodup_map hnodup (List.mem_range.mpr hc) (List.mem_range.mpr hd) h

theorem hexDigits_of_lt {n : Nat} (h : n < 16) : hexDigits n = [n.digitChar] :=
  Nat.toDigits_of_lt_base h

theorem hexDigits_of_le {n : Nat} (h : 16 ≤ n) :
    hexDigits n = hexDigits (n / 16) ++ [(n % 16).digitChar] :=
  Nat.toDigits_of_base_le (by decide) h

theorem mem_hexAlphabet {n : Nat} {c : Char} (hc : c ∈ hexDigits n) : c ∈ hexAlphabet := by
  induction n using Nat.strongRecOn with
  | _ n ih =>
    by_cases hn : n < 16
    · rw [hexDigits_of_lt hn, List.mem_singleton] at hc
      exact hc ▸ digitChar_mem_hexAlphabet hn
    · rw [hexDigits_of_le (Nat.le_of_not_lt hn), List.mem_append, List.mem_singleton] at hc
      obtain hc | rfl := hc
      · exact ih (n / 16) (by omega) hc
      · exact digitChar_mem_hexAlphabet (Nat.mod_lt n (by decide))

theorem hex_notMem {n : Nat} {c : Char} (hc : c ∉ hexAlphabet) : c ∉ hexDigits n :=
  fun h => hc (mem_hexAlphabet h)

theorem hexDigits_injective : Function.Injective hexDigits := by
  -- The last digit tells the remainder, and what is before it the quotient.
  intro m n h
  induction m using Nat.strongRecOn generalizing n with
  | _ m ih =>
    have hne : ∀ k, hexDigits k ≠ [] := fun k => Nat.toDigits_ne_nil
    by_cases hm : m < 16 <;> by_cases hn : n < 16
    · rw [hexDigits_of_lt hm, hexDigits_of_lt hn] at h
      exact digitChar_injective hm hn (List.singleton_inj.mp h)
    · rw [hexDigits_of_lt hm, hexDigits_of_le (Nat.le_of_not_lt hn)] at h
      exact absurd (List.append_eq_singleton_iff.mp h.symm) (by simp [hne])
    · rw [hexDigits_of_le (Nat.le_of_not_lt hm), hexDigits_of_lt hn] at h
      exact absurd (List.append_eq_singleton_iff.mp h) (by simp [hne])
    · rw [hexDigits_of_le (Nat.le_of_not_lt hm), hexDigits_of_le (Nat.le_of_not_lt hn)] at h
      obtain ⟨hquotient, hlast⟩ := List.append_inj' h rfl
      have hq : m / 16 = n / 16 := ih (m / 16) (by omega) hquotient
      have hr : m % 16 = n % 16 := digitChar_injective (Nat.mod_lt m (by decide))
        (Nat.mod_lt n (by decide)) (List.singleton_inj.mp hlast)
      omega

theorem address_injective : Function.Injective address := by
  intro m n h
  have hchars := String.ofList_injective h
  exact hexDigits_injective (List.cons.inj (List.cons.inj hchars).2).2

end RemoteInspect.Text
