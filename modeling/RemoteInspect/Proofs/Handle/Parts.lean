import RemoteInspect.Handle.Basic
import RemoteInspect.Proofs.Path.Decoding

namespace RemoteInspect

def Pool.Covers (pool : Pool) (steps : List Step) : Prop :=
  ∀ lookup reference, Step.index lookup reference ∈ steps → reference.toNat ≤ pool.size

namespace Handle

variable {path : Path} {pool : Pool} {h : Handle}

def danglingAt? (pool : Pool) : Step × Nat → Option (Nat × UInt32)
  | (s, pos) => match s.reference? with
    | some reference => if pool.size < reference.toNat then some (pos, reference) else none
    | none => none

theorem danglingAt?_eq_some_iff {s : Step} {i pos : Nat} {ref : UInt32} :
    danglingAt? pool (s, i) = some (pos, ref) ↔
      (∃ lookup, s = .index lookup ref) ∧ i = pos ∧ pool.size < ref.toNat := by
  cases s with
  | index lookup key =>
    by_cases h0 : key = 0
    · simp only [danglingAt?, Step.reference?, h0, ↓reduceIte, reduceCtorEq, false_iff, not_and]
      rintro ⟨_, ⟨⟩⟩ -
      exact Nat.not_lt_zero _
    · by_cases hk : pool.size < key.toNat
      · simp only [danglingAt?, Step.reference?, h0, hk, ↓reduceIte, Option.some.injEq,
          Prod.mk.injEq, Step.index.injEq, exists_eq_left']
        exact ⟨fun ⟨hi, hr⟩ => ⟨hr, hi, hr ▸ hk⟩, fun ⟨hr, hi, _⟩ => ⟨hi, hr⟩⟩
      · simp only [danglingAt?, Step.reference?, h0, hk, ↓reduceIte, reduceCtorEq, false_iff,
          not_and]
        rintro ⟨_, ⟨⟩⟩ -
        exact hk
  | _ => simp [danglingAt?, Step.reference?]

theorem danglingAt?_eq_none_iff {s : Step} {i : Nat} :
    danglingAt? pool (s, i) = none ↔ pool.Covers [s] := by
  rw [Option.eq_none_iff_forall_ne_some]
  constructor
  · intro h lookup ref hm
    obtain rfl := List.mem_singleton.mp hm
    refine Nat.le_of_not_lt fun hlt => h (i, ref) ?_
    exact danglingAt?_eq_some_iff.mpr ⟨⟨lookup, rfl⟩, rfl, hlt⟩
  · rintro h ⟨pos, ref⟩ hs
    obtain ⟨⟨lookup, rfl⟩, -, hlt⟩ := danglingAt?_eq_some_iff.mp hs
    exact Nat.not_lt.mpr (h lookup ref List.mem_cons_self) hlt

theorem forall_danglingAt?_eq_none_iff {steps : List Step} :
    (∀ x ∈ steps.zipIdx, danglingAt? pool x = none) ↔ pool.Covers steps := by
  constructor
  · intro h lookup ref hm
    obtain ⟨i, hi⟩ := List.mem_iff_getElem?.mp hm
    have hnone := h (_, i) (List.mem_zipIdx_iff_getElem?.mpr hi)
    exact danglingAt?_eq_none_iff.mp hnone lookup ref List.mem_cons_self
  · rintro h ⟨s, i⟩ hx
    refine danglingAt?_eq_none_iff.mpr fun lookup ref hm => h lookup ref ?_
    rw [List.mem_singleton.mp hm]
    exact List.mem_of_getElem? (List.mem_zipIdx_iff_getElem?.mp hx)

theorem dangling?_eq_some_iff {pos : Nat} {ref : UInt32} :
    dangling? path pool = some (pos, ref) ↔ ∃ before lookup after,
      path.steps = before ++ .index lookup ref :: after ∧ pool.Covers before ∧
        pool.size < ref.toNat ∧ pos = before.length := by
  have hfind : dangling? path pool = path.steps.zipIdx.findSome? (danglingAt? pool) := rfl
  rw [hfind, List.findSome?_eq_some_iff]
  constructor
  · rintro ⟨before', ⟨s, i⟩, after', hx, hs, hbefore⟩
    obtain ⟨before, rest, hsteps, rfl, hrest⟩ := List.zipIdx_eq_append_iff.mp hx
    obtain ⟨_, after, rfl, ⟨⟩, -⟩ := List.zipIdx_eq_cons_iff.mp hrest.symm
    obtain ⟨⟨lookup, rfl⟩, rfl, hlt⟩ := danglingAt?_eq_some_iff.mp hs
    exact ⟨before, lookup, after, hsteps, forall_danglingAt?_eq_none_iff.mp hbefore, hlt,
      Nat.zero_add _⟩
  · rintro ⟨before, lookup, after, hsteps, hbefore, hlt, rfl⟩
    refine ⟨before.zipIdx, (.index lookup ref, before.length), after.zipIdx (before.length + 1),
      ?_, danglingAt?_eq_some_iff.mpr ⟨⟨lookup, rfl⟩, rfl, hlt⟩,
      forall_danglingAt?_eq_none_iff.mpr hbefore⟩
    rw [hsteps, List.zipIdx_append, List.zipIdx_cons, Nat.zero_add]

/-- The first reference past the end of the pool is the one to blame, wherever it is in the path. -/
theorem ofParts_eq_error_iff {e : Path.Defect} :
    ofParts path pool = .error e ↔ ∃ before lookup ref after,
      path.steps = before ++ .index lookup ref :: after ∧ pool.Covers before ∧
        pool.size < ref.toNat ∧ e = .poolReference before.length ref pool.size := by
  constructor
  · intro h
    rw [ofParts] at h
    split at h
    · rename_i pos ref hs
      cases h
      obtain ⟨before, lookup, after, hsteps, hbefore, hlt, rfl⟩ := dangling?_eq_some_iff.mp hs
      exact ⟨before, lookup, ref, after, hsteps, hbefore, hlt, rfl⟩
    · cases h
  · rintro ⟨before, lookup, ref, after, hsteps, hbefore, hlt, rfl⟩
    have hs := dangling?_eq_some_iff.mpr ⟨before, lookup, after, hsteps, hbefore, hlt, rfl⟩
    rw [ofParts, hs]

theorem ofParts_eq_ok_iff :
    ofParts path pool = .ok h ↔ pool.Covers path.steps ∧ h = ⟨path, pool⟩ := by
  have hnone : dangling? path pool = none ↔ pool.Covers path.steps :=
    List.findSome?_eq_none_iff.trans forall_danglingAt?_eq_none_iff
  rw [← hnone, ofParts]
  cases dangling? path pool <;> simp [eq_comm]

end Handle

end RemoteInspect
