import RemoteInspect.Proofs.Inspect.Following

namespace RemoteInspect

namespace Tree

variable {t : Target}

theorem ofOption_error {what : Missing} {v? : Option Live} {f : Failure}
    (h : ofOption what v? = .error f) : f = .notFound what := by
  cases v? with
  | none => cases h; rfl
  | some v => cases h

theorem checkKind_error {expected : Expectation} {v : Live} {f : Failure}
    (h : checkKind t expected v = .error f) : ∃ kind, f = .wrongKind expected kind := by
  rw [checkKind] at h
  split at h
  · split at h <;> cases h
    exact ⟨_, rfl⟩
  · cases h

theorem lookUp_error {lookup : Lookup} {table key : Live} {f : Failure}
    (h : lookUp t lookup table key = .error f) :
    f = .notFound .key ∨ f = .notFound .nextKey := by
  cases lookup with
  | get =>
    simp only [lookUp] at h
    split at h <;> cases h
    exact .inl rfl
  | next =>
    simp only [lookUp] at h
    split at h <;> cases h
    · exact .inr rfl
    · exact .inl rfl

/-- A tree has no value if something is not there, or not of the kind that is expected. Nothing is
exhausted, and no pool entry is missing. -/
theorem value_error {tree : Tree Scalar} {f : Failure} (h : tree.value t = .error f) :
    f.isFatal = false ∧ ∀ ref, f ≠ .notFound (.poolEntry ref) := by
  have hkind : ∀ {expected : Expectation} {v : Live}, checkKind t expected v = .error f →
      f.isFatal = false ∧ ∀ ref, f ≠ .notFound (.poolEntry ref) := by
    intro expected v h
    obtain ⟨kind, rfl⟩ := checkKind_error h
    exact ⟨rfl, by simp⟩
  have hlookUp : ∀ {lookup : Lookup} {table key : Live}, lookUp t lookup table key = .error f →
      f.isFatal = false ∧ ∀ ref, f ≠ .notFound (.poolEntry ref) := by
    intro lookup table key h
    obtain rfl | rfl := lookUp_error h <;> exact ⟨rfl, by simp⟩
  induction tree with
  | root r => cases h
  | frameLocal frame slot =>
    simp only [value] at h
    split at h
    · cases ofOption_error h
      exact ⟨rfl, by simp⟩
    · cases h
      exact ⟨rfl, by simp⟩
  | frameFunction frame =>
    cases ofOption_error h
    exact ⟨rfl, by simp⟩
  | kindMetatable kind =>
    simp only [value] at h
    split at h
    · cases h
      exact ⟨rfl, by simp⟩
    · cases ofOption_error h
      exact ⟨rfl, by simp⟩
  | index lookup base key ih =>
    simp only [value, Except.bind_eq_error_iff] at h
    obtain h | ⟨v, _, h | ⟨table, _, h⟩⟩ := h
    · exact ih h
    · exact hkind h
    · exact hlookUp h
  | indexObject lookup base key ihb ihk =>
    simp only [value, Except.bind_eq_error_iff] at h
    obtain h | ⟨v, _, h | ⟨table, _, h | ⟨k, _, h⟩⟩⟩ := h
    · exact ihb h
    · exact hkind h
    · exact ihk h
    · exact hlookUp h
  | upvalue base _ ih | metatable base ih | userPayload base ih =>
    simp only [value, Except.bind_eq_error_iff] at h
    obtain h | ⟨v, _, h | ⟨v', _, h⟩⟩ := h
    · exact ih h
    · exact hkind h
    · cases ofOption_error h
      exact ⟨rfl, by simp⟩

end Tree

namespace Inspect

/-- Unless following a handle exhausts a resource, it gives the value of the tree of the handle, or
the failure of the first node that fails. The only fault is that of a node that asks for more slots
than a word can count. -/
theorem evaluate_refines {h : Handle} (hh : h.Built) {t : Target} (ht : t.Reachable)
    (limits : Limits) :
    ∃ tree r, h.HasTree tree ∧ ((evaluate h).outcome limits t).result = r ∧
      ((∀ what, r ≠ .error (.failure (.exhausted what))) → (∀ f, r ≠ .error (.fault f)) →
        r = (tree.value t).mapError Stop.failure) ∧
      (∀ f, r = .error (.fault f) ↔ f = .outOfRange ∧ tree.Overflows limits t t.pinned) ∧
      ∀ ref, r ≠ .error (.failure (.notFound (.poolEntry ref))) := by
  obtain ⟨tree, htree⟩ := hh.denotes
  have hruns : Runs limits t t.pinned 1 (evaluate h) _ := evaluate_runs ht.sound htree t.pinned
  have hcases := Tree.limited_cases limits t t.pinned tree
  refine ⟨tree, _, htree.hasTree, hruns.outcome, fun hroom hfits => ?_,
    fun f => Tree.limited_eq_fault_iff, fun ref href => ?_⟩
  · obtain hvalue | ⟨what, hwhat⟩ | ⟨hfault, -⟩ := hcases
    · exact hvalue
    · exact absurd hwhat (hroom what)
    · exact absurd hfault (hfits _)
  · rw [href] at hcases
    obtain hvalue | ⟨what, hwhat⟩ | ⟨hfault, -⟩ := hcases
    · cases hv : tree.value t with
      | ok v => rw [hv] at hvalue; cases hvalue
      | error f =>
        rw [hv] at hvalue
        cases hvalue
        exact (Tree.value_error hv).2 ref rfl
    · cases hwhat
    · cases hfault

/-- A userdata is a key of the table it is found in, under a float that denotes an integer. -/
theorem evaluate_refines_linked :
    let table : Handle := ⟨⟨[.index .get 1, .root .globals]⟩, ⟨[.string [107]]⟩⟩
    let one : Scalar := .float ⟨0x3FF0000000000000⟩
    ∃ key h, table.index one = .ok key ∧ table.indexObject .get key = .ok h ∧
      h.path.steps = [.indexObject .get 2, .index .get 1, .root .globals,
        .index .get 3, .index .get 2, .root .globals] ∧
      ((evaluate h).outcome .standard Target.linked).result = .ok (.object 3) ∧
      ∃ tree, h.HasTree tree ∧ tree.value Target.linked = .ok (.object 3) := by
  intro table one
  have htable : table.Built := @Handle.Built.index _ _ (.string [107]) (.root .globals) rfl
  obtain ⟨key, hkey⟩ : ∃ key, table.index one = .ok key := ⟨_, rfl⟩
  obtain ⟨h, hh⟩ : ∃ h, table.indexObject .get key = .ok h := by
    cases hkey
    exact ⟨_, rfl⟩
  have hbuilt : h.Built := .indexObject htable (.index htable hkey) hh
  obtain ⟨tree, r, htree, hresult, hvalue, -⟩ :=
    evaluate_refines hbuilt Target.reachable_linked .standard
  have hr : ((evaluate h).outcome .standard Target.linked).result = .ok (.object 3) := by
    cases hkey
    cases hh
    rfl
  have hok : r = .ok (.object 3) := hresult.symm.trans hr
  subst hok
  refine ⟨key, h, hkey, hh, ?_, hr, tree, htree, ?_⟩
  · cases hkey
    cases hh
    rfl
  · have hideal := hvalue (by simp) (by simp)
    cases hv : tree.value Target.linked with
    | ok v => rw [hv] at hideal; cases hideal; rfl
    | error f => rw [hv] at hideal; cases hideal

end Inspect

end RemoteInspect
