import RemoteInspect.Proofs.Except
import RemoteInspect.Proofs.Tree.Preorder
import RemoteInspect.Tree.Search

namespace RemoteInspect.Tree

variable {pos : Nat} {steps rest : List Step} {r : Tree UInt32}

theorem search_indexObject_eq_ok_iff {lookup : Lookup} {declared : UInt32} :
    search pos (.indexObject lookup declared :: rest) = .ok r ↔
      ∃ base key, search (pos + 1) rest = .ok base ∧ base.size = declared.toNat ∧
        search (pos + 1 + base.size) (rest.drop base.size) = .ok key ∧
        r = .indexObject lookup base key := by
  rw [search, Except.bind_eq_ok_iff]
  constructor
  · rintro ⟨base, hb, h⟩
    by_cases hsize : base.size = declared.toNat
    · simp only [hsize, ne_eq, not_true_eq_false, ↓reduceIte, Except.bind_eq_ok_iff,
        Except.pure_eq_ok, Except.ok.injEq] at h
      obtain ⟨key, hk, rfl⟩ := h
      exact ⟨base, key, hb, hsize, hsize ▸ hk, rfl⟩
    · simp [hsize] at h
  · rintro ⟨base, key, hb, hsize, hk, rfl⟩
    exact ⟨base, hb, by simp [← hsize, hk]⟩

theorem search_preorder (hr : r.Declarable) (pos : Nat) (rest : List Step) :
    search pos (r.preorder ++ rest) = .ok r := by
  induction r generalizing pos rest with
  | frameLocal | frameFunction | root | kindMetatable => simp [preorder, step, search]
  | index lookup base key ih | upvalue base n ih | metatable base ih | userPayload base ih =>
    simp [preorder, step, search, ih hr]
  | indexObject lookup base key ihb ihk =>
    obtain ⟨hsize, hb, hk⟩ := hr
    rw [preorder, step, List.cons_append, List.append_assoc, search_indexObject_eq_ok_iff]
    refine ⟨base, key, ihb hb _ _, (UInt32.toNat_ofNat_of_lt' hsize).symm, ?_, rfl⟩
    rw [← length_preorder, List.drop_left]
    exact ihk hk _ _

theorem exists_append_of_search (h : search pos steps = .ok r) :
    r.Declarable ∧ ∃ rest, r.preorder ++ rest = steps := by
  induction pos, steps using search.induct generalizing r with
  | case1 => simp [search] at h
  | case2 pos frame slot rest | case3 pos frame rest | case4 pos root rest | case5 pos kind rest =>
    simp only [search, Except.ok.injEq] at h
    subst h
    exact ⟨trivial, rest, rfl⟩
  | case6 pos lookup key rest ih | case7 pos n rest ih | case8 pos rest ih | case9 pos rest ih =>
    simp only [search, Except.bind_eq_ok_iff, Except.pure_eq_ok, Except.ok.injEq] at h
    obtain ⟨base, hb, rfl⟩ := h
    obtain ⟨hd, rest, rfl⟩ := ih hb
    exact ⟨hd, rest, rfl⟩
  | case10 pos lookup declared rest ihb ihk =>
    obtain ⟨base, key, hb, hsize, hk, rfl⟩ := search_indexObject_eq_ok_iff.mp h
    obtain ⟨hbd, behind, rfl⟩ := ihb hb
    obtain ⟨hkd, rest, hrest⟩ := ihk base hk
    rw [← length_preorder, List.drop_left] at hrest
    have hdeclared : base.size < UInt32.size := hsize ▸ declared.toNat_lt
    refine ⟨⟨hdeclared, hbd, hkd⟩, rest, ?_⟩
    rw [preorder, step, hsize, UInt32.ofNat_toNat, List.cons_append, List.append_assoc, hrest]

theorem size_le_of_search (h : search pos steps = .ok r) : r.size ≤ steps.length := by
  obtain ⟨-, rest, rfl⟩ := exists_append_of_search h
  rw [List.length_append, length_preorder]
  exact Nat.le_add_right ..

/-- Steps run out only at their end, however deep the search is then. -/
theorem eq_of_search_truncated {p : Nat} (h : search pos steps = .error (.truncated p)) :
    p = pos + steps.length := by
  induction pos, steps using search.induct with
  | case1 =>
    simp only [search, Except.error.injEq, Path.Defect.truncated.injEq] at h
    exact h.symm
  | case2 | case3 | case4 | case5 => simp [search] at h
  | case6 pos _ _ rest ih | case7 pos _ rest ih | case8 pos rest ih | case9 pos rest ih =>
    simp only [search, Except.bind_eq_error_iff, Except.pure_eq_ok, reduceCtorEq, and_false,
      exists_false, or_false] at h
    rw [ih h, List.length_cons]
    omega
  | case10 pos lookup declared rest ihb ihk =>
    rw [search, Except.bind_eq_error_iff] at h
    obtain h | ⟨base, hb, h⟩ := h
    · rw [ihb h, List.length_cons]
      omega
    · by_cases hsize : base.size = declared.toNat
      · simp only [hsize, ne_eq, not_true_eq_false, ↓reduceIte, Except.bind_eq_error_iff,
          Except.pure_eq_ok, reduceCtorEq, and_false, exists_false, or_false] at h
        have hle := size_le_of_search hb
        rw [ihk base (hsize ▸ h), List.length_drop, List.length_cons]
        omega
      · simp [hsize] at h

end RemoteInspect.Tree
