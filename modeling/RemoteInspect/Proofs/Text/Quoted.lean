import RemoteInspect.Proofs.Text.Numerals

namespace RemoteInspect.Text

/-- The characters that an escape of one letter stands for. -/
def letters : List (Char × Char) :=
  [('"', '"'), ('\\', '\\'), ('\n', 'n'), ('\r', 'r'), ('\t', 't'), ('\x00', '0')]

inductive Escapes (c : Char) : List Char → Prop
  | letter {l : Char} (pair : (c, l) ∈ letters) : Escapes c ['\\', l]
  | plain (backslash : c ≠ '\\') (quotes : c ≠ '"') (newline : c ≠ '\n') : Escapes c [c]
  | code : Escapes c ('\\' :: 'u' :: '{' :: (hexDigits c.toNat ++ ['}']))

theorem escapes_escape (c : Char) : Escapes c (escape c) := by
  by_cases hletter : ∃ l, (c, l) ∈ letters
  · obtain ⟨l, hl⟩ := hletter
    have hescape : ∀ p ∈ letters, escape p.1 = ['\\', p.2] := by decide
    exact hescape _ hl ▸ .letter hl
  · have hplain : c ≠ '"' ∧ c ≠ '\\' ∧ c ≠ '\n' ∧ c ≠ '\r' ∧ c ≠ '\t' ∧ c ≠ '\x00' := by
      simpa [letters, not_exists, not_or, forall_and] using hletter
    obtain ⟨hquotes, hbackslash, hnewline, hreturn, htab, hzero⟩ := hplain
    simp only [escape, hquotes, hbackslash, hnewline, hreturn, htab, hzero, ↓reduceIte]
    cases isGraphic c with
    | true => exact .plain hbackslash hquotes hnewline
    | false => exact .code

theorem Escapes.split {c d : Char} {w w' rest rest' : List Char} (hc : Escapes c w)
    (hd : Escapes d w') (h : w ++ rest = w' ++ rest') : c = d ∧ rest = rest' := by
  have hpair : ∀ p ∈ letters, ∀ q ∈ letters, p.2 = q.2 → p.1 = q.1 := by decide
  have hcode : ∀ p ∈ letters, p.2 ≠ 'u' := by decide
  cases hc with
  | letter pair =>
    cases hd with
    | letter pair' =>
      have htail := List.cons.inj (List.cons.inj h).2
      exact ⟨hpair _ pair _ pair' htail.1, htail.2⟩
    | plain backslash => exact absurd (List.cons.inj h).1.symm backslash
    | code => exact absurd (List.cons.inj (List.cons.inj h).2).1 (hcode _ pair)
  | plain backslash =>
    cases hd with
    | letter pair' => exact absurd (List.cons.inj h).1 backslash
    | plain => exact List.cons.inj h
    | code => exact absurd (List.cons.inj h).1 backslash
  | code =>
    cases hd with
    | letter pair' => exact absurd (List.cons.inj (List.cons.inj h).2).1.symm (hcode _ pair')
    | plain backslash => exact absurd (List.cons.inj h).1.symm backslash
    | code =>
      have hend : ∀ n, '}' ∉ hexDigits n := fun n => hex_notMem (by decide)
      simp only [List.cons_append, List.append_assoc, List.cons.injEq, true_and,
        List.nil_append] at h
      obtain ⟨hdigits, hrest⟩ := append_cons_split (hend _) (hend _) h
      exact ⟨Char.toNat_inj.mp (hexDigits_injective hdigits), hrest⟩

theorem Escapes.head_ne {c : Char} {w : List Char} (h : Escapes c w) (rest rest' : List Char) :
    w ++ rest ≠ '"' :: rest' := by
  cases h with
  | letter pair => simp
  | plain backslash quotes => simp [quotes]
  | code => simp

theorem Escapes.newline_notMem {c : Char} {w : List Char} (h : Escapes c w) : '\n' ∉ w := by
  cases h with
  | letter pair =>
    have hletters : ∀ p ∈ letters, p.2 ≠ '\n' := by decide
    simpa [eq_comm] using hletters _ pair
  | plain backslash quotes newline => simpa [eq_comm] using newline
  | code => simpa using hex_notMem (by decide)

theorem flatMap_escape_split {cs ds rest rest' : List Char}
    (h : cs.flatMap escape ++ '"' :: rest = ds.flatMap escape ++ '"' :: rest') :
    cs = ds ∧ rest = rest' := by
  induction cs generalizing ds with
  | nil =>
    cases ds with
    | nil => exact ⟨rfl, (List.cons.inj h).2⟩
    | cons d ds =>
      rw [List.flatMap_cons, List.append_assoc] at h
      exact absurd h.symm ((escapes_escape d).head_ne _ _)
  | cons c cs ih =>
    rw [List.flatMap_cons, List.append_assoc] at h
    cases ds with
    | nil => exact absurd h ((escapes_escape c).head_ne _ _)
    | cons d ds =>
      rw [List.flatMap_cons, List.append_assoc] at h
      obtain ⟨rfl, h'⟩ := (escapes_escape c).split (escapes_escape d) h
      obtain ⟨rfl, hrest⟩ := ih h'
      exact ⟨rfl, hrest⟩

theorem quote_injective : Function.Injective quote :=
  fun _ _ h => (flatMap_escape_split (List.cons.inj h).2).1

theorem newline_notMem_quote (cs : List Char) : '\n' ∉ quote cs := by
  have hescape : ∀ c ∈ cs, '\n' ∉ escape c := fun c _ => (escapes_escape c).newline_notMem
  simpa [quote] using hescape

end RemoteInspect.Text
