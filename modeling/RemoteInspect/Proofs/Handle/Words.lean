import RemoteInspect.Proofs.Handle.Denotation

namespace RemoteInspect.Handle

theorem fault_of_constantLookup {b : Handle} {lookup : Lookup} {key : Scalar} {f : Fault}
    (h : b.constantLookup lookup key = .error f) : f = .poolTooLarge := by
  rw [constantLookup] at h
  split at h
  · cases h
  · split at h <;> cases h
    rfl

theorem fault_of_index {b : Handle} {key : Scalar} {f : Fault} (h : b.index key = .error f) :
    f = .nilKey ∨ f = .poolTooLarge := by
  rw [index] at h
  split at h
  · cases h
    exact .inl rfl
  · exact .inr (fault_of_constantLookup h)

theorem fault_of_shift {offset : Nat} {s : Step} {f : Fault} (h : shift offset s = .error f) :
    f = .referenceTooLarge := by
  cases s with
  | index lookup key =>
    rw [shift] at h
    split at h
    · cases h
    · split at h <;> cases h
      rfl
  | _ => cases h

theorem fault_of_mapM_shift {offset : Nat} {steps : List Step} {f : Fault}
    (h : steps.mapM (shift offset) = .error f) : f = .referenceTooLarge := by
  induction steps with
  | nil => cases h
  | cons s rest ih =>
    simp only [List.mapM_cons, Except.bind_eq_error_iff, Except.pure_eq_ok, reduceCtorEq,
      and_false, exists_false, or_false] at h
    obtain h | ⟨_, _, h⟩ := h
    · exact fault_of_shift h
    · exact ih h

theorem fault_of_indexObject {b k : Handle} {lookup : Lookup} {f : Fault}
    (h : b.indexObject lookup k = .error f) :
    f = .poolTooLarge ∨ f = .baseTooLarge ∨ f = .referenceTooLarge := by
  by_cases hp : wordLimit ≤ b.pool.size
  · simp only [indexObject, hp, ↓reduceIte, Except.throw_eq_error, Except.error_bind,
      Except.error.injEq] at h
    exact .inl h.symm
  · by_cases hs : wordLimit ≤ b.path.size
    · simp only [indexObject, hp, hs, ↓reduceIte, Except.throw_eq_error, Except.pure_eq_ok,
        Except.error_bind, Except.error.injEq] at h
      exact .inr (.inl h.symm)
    · simp only [indexObject, hp, hs, ↓reduceIte, Except.pure_eq_ok,
        Except.bind_eq_error_iff, reduceCtorEq, and_false, exists_false, or_false] at h
      exact .inr (.inr (fault_of_mapM_shift h))

variable {b k h : Handle} {lookup : Lookup}

theorem pool_size_of_constantLookup {key : Scalar} (h' : b.constantLookup lookup key = .ok h) :
    h.pool.size ≤ b.pool.size + 1 := by
  rw [constantLookup] at h'
  split at h'
  · cases h'
    exact Nat.le_succ _
  · split at h'
    · cases h'
    · cases h'
      exact Nat.le_of_eq (Pool.size_push ..)

theorem pool_size_of_indexObject (h' : b.indexObject lookup k = .ok h) :
    h.pool.size = b.pool.size + k.pool.size := by
  obtain ⟨-, -, moved, -, rfl⟩ := indexObject_eq_ok_iff_mapM.mp h'
  exact Pool.size_append ..

/-- Words do not hold all that is counted for handles of up to `most` keys in a row. -/
def TooLarge (b : Handle) (most : Nat) : Prop :=
  wordLimit ≤ b.path.size ∨ wordLimit ≤ (most + 1) * b.pool.size + 1

theorem pool_lt_of_not_tooLarge {most run n : Nat} (h' : ¬ b.TooLarge most) (hrun : run ≤ most)
    (hn : n ≤ run * b.pool.size + 1) : b.pool.size + n < wordLimit := by
  have hword : (most + 1) * b.pool.size + 1 < wordLimit := by
    simp only [TooLarge, not_or, Nat.not_le] at h'
    exact h'.2
  have hmost : (run + 1) * b.pool.size ≤ (most + 1) * b.pool.size :=
    Nat.mul_le_mul_right _ (Nat.succ_le_succ hrun)
  rw [Nat.succ_mul] at hmost
  omega

end RemoteInspect.Handle
