import RemoteInspect.Proofs.Path.Layout

namespace RemoteInspect

theorem Record.defect_of_step {i : Nat} {r : Record} {e : Path.Defect}
    (h : r.step i = .error e) :
    e = .unknownTag i r.tag ∨ e = .invalidMode i r.frame ∨ e = .invalidKind i r.index := by
  have hlookup : ∀ {make : Lookup → Step}, (r.lookup i).map make = .error e →
      e = .invalidMode i r.frame := by
    intro make h
    rw [Except.map_eq_error_iff, Record.lookup] at h
    split at h <;> cases h
    rfl
  rw [Record.step.eq_def] at h
  split at h
  case h_3 => exact .inr (.inl (hlookup h))
  case h_4 => exact .inr (.inl (hlookup h))
  case h_9 =>
    split at h
    · cases h
    · split at h
      · split at h <;> cases h
        exact .inr (.inr rfl)
      · cases h
        exact .inr (.inl rfl)
  all_goals cases h
  exact .inl rfl

namespace Path

def Reads (records : List Record) (steps : List Step) : Prop :=
  List.Forall₂ (fun (r, i) s => Record.step i r = .ok s) records.zipIdx steps

theorem Reads.length_eq {records : List Record} {steps : List Step} (h : Reads records steps) :
    records.length = steps.length := by
  rw [← List.length_zipIdx, List.Forall₂.length_eq h]

/-- What is wrong with records: the first of them that has no step, or else the first thing that a
search from the root comes upon, or else what is left behind the tree that it finds. -/
inductive Malformed : List Record → Defect → Prop
  | empty : Malformed [] .empty
  | record {before after : List Record} {r : Record} {steps : List Step} {e : Defect}
      (readable : Reads before steps) (unreadable : r.step before.length = .error e) :
      Malformed (before ++ r :: after) e
  | layout {records : List Record} {steps : List Step} {e : Defect} (nonempty : records ≠ [])
      (readable : Reads records steps) (lost : Tree.search 0 steps = .error e) :
      Malformed records e
  | trailing {records : List Record} {steps : List Step} {r : Tree UInt32}
      (readable : Reads records steps) (found : Tree.search 0 steps = .ok r)
      (short : r.size < steps.length) : Malformed records (.trailing r.size records.length)

variable {records : List Record}

theorem decode_eq (hne : records ≠ []) : decode records = (do
    let steps ← records.zipIdx.mapM fun (r, i) => r.step i
    let r ← Tree.search 0 steps
    if r.size ≠ steps.length then .error (.trailing r.size steps.length) else return ⟨steps⟩) := by
  have hempty : records.isEmpty = false := by rwa [List.isEmpty_eq_false_iff]
  simp only [decode, hempty, checkedSize_eq_search, Bool.false_eq_true, ↓reduceIte]
  refine congrArg _ (funext fun steps => ?_)
  cases Tree.search 0 steps <;> rfl

theorem decode_eq_ok_iff {p : Path} : decode records = .ok p ↔ records ≠ [] ∧
    Reads records p.steps ∧ ∃ r : Tree UInt32, r.Declarable ∧ r.preorder = p.steps := by
  by_cases hne : records = []
  · subst hne
    simp [decode]
  simp only [decode_eq hne, Except.bind_eq_ok_iff, Except.mapM_eq_ok_iff, ne_eq, hne,
    not_false_eq_true, true_and]
  constructor
  · rintro ⟨steps, hreads, r, hr, h⟩
    by_cases hsize : r.size = steps.length
    · obtain ⟨hd, rest, rfl⟩ := Tree.exists_append_of_search hr
      have hrest : rest = [] := by
        rw [List.length_append, Tree.length_preorder] at hsize
        exact List.length_eq_zero_iff.mp (by omega)
      subst hrest
      simp only [hsize, not_true_eq_false, ↓reduceIte, Except.pure_eq_ok, Except.ok.injEq] at h
      subst h
      exact ⟨hreads, r, hd, (List.append_nil _).symm⟩
    · simp [hsize] at h
  · rintro ⟨hreads, r, hd, hp⟩
    have hr := Tree.search_preorder hd 0 []
    rw [List.append_nil, hp] at hr
    have hsize : r.size = p.steps.length := by rw [← hp, Tree.length_preorder]
    exact ⟨p.steps, hreads, r, hr, by simp [hsize]⟩

theorem reads_encode (p : Path) : Reads p.encode p.steps := by
  refine List.forall₂_iff_get.mpr ⟨by simp [encode], fun i _ _ => ?_⟩
  simp [encode, Record.step_ofStep]

theorem decode_encode {p : Path} {r : Tree UInt32} (hd : r.Declarable) (hp : r.preorder = p.steps) :
    decode p.encode = .ok p := by
  have hne : r.preorder ≠ [] := by cases r <;> simp [Tree.preorder]
  refine decode_eq_ok_iff.mpr ⟨?_, reads_encode p, r, hd, hp⟩
  rwa [encode, ne_eq, List.map_eq_nil_iff, ← hp]

theorem malformed_of_decode {e : Defect} (h : decode records = .error e) : Malformed records e := by
  by_cases hne : records = []
  · subst hne
    cases h
    exact .empty
  rw [decode_eq hne, Except.bind_eq_error_iff] at h
  obtain h | ⟨steps, hsteps, h⟩ := h
  · obtain ⟨before', x, after', hx, ⟨steps, hsteps⟩, he⟩ := Except.mapM_eq_error_iff.mp h
    obtain ⟨before, rest, rfl, rfl, hrest⟩ := List.zipIdx_eq_append_iff.mp hx
    obtain ⟨r, after, rfl, rfl, -⟩ := List.zipIdx_eq_cons_iff.mp hrest.symm
    rw [Nat.zero_add] at he
    exact .record (Except.mapM_eq_ok_iff.mp hsteps) he
  have hreads : Reads records steps := Except.mapM_eq_ok_iff.mp hsteps
  obtain h | ⟨r, hr, h⟩ := Except.bind_eq_error_iff.mp h
  · exact .layout hne hreads h
  · have hle := Tree.size_le_of_search hr
    by_cases hsize : r.size = steps.length
    · simp [hsize] at h
    · simp only [hsize, ne_eq, not_false_eq_true, ↓reduceIte, Except.error.injEq] at h
      subst h
      rw [← hreads.length_eq]
      exact .trailing hreads hr (by omega)

theorem decode_of_malformed {e : Defect} (h : Malformed records e) : decode records = .error e := by
  cases h with
  | empty => rfl
  | @record before after r steps _ readable unreadable =>
    rw [decode_eq (by simp), Except.bind_eq_error_iff, Except.mapM_eq_error_iff]
    refine .inl ⟨before.zipIdx, (r, before.length), after.zipIdx (before.length + 1), ?_,
      ⟨steps, Except.mapM_eq_ok_iff.mpr readable⟩, unreadable⟩
    rw [List.zipIdx_append, List.zipIdx_cons, Nat.zero_add]
  | layout nonempty readable lost =>
    rw [decode_eq nonempty, Except.mapM_eq_ok_iff.mpr readable, Except.ok_bind, lost]
    rfl
  | @trailing _ steps r readable found short =>
    have hne : records ≠ [] := by
      rintro rfl
      have hlength := readable.length_eq
      rw [← hlength] at short
      exact Nat.not_lt_zero _ short
    rw [decode_eq hne, Except.mapM_eq_ok_iff.mpr readable, Except.ok_bind, found, Except.ok_bind,
      if_pos (Nat.ne_of_lt short), readable.length_eq]

theorem eq_length_of_malformed {pos : Nat} (h : Malformed records (.truncated pos)) :
    pos = records.length := by
  cases h with
  | record readable unreadable =>
    obtain h | h | h := Record.defect_of_step unreadable <;> cases h
  | layout nonempty readable lost =>
    rw [Tree.eq_of_search_truncated lost, Nat.zero_add, readable.length_eq]

/-- Records form a path if and only if each has its step and the steps are the preorder of a tree,
with the sizes of its bases declared. Of all that is wrong with others the first thing counts, and
steps run out only at the end of the records. -/
theorem decode_exact (records : List Record) :
    (∀ p, decode records = .ok p ↔ records ≠ [] ∧ Reads records p.steps ∧
      ∃! r : Tree UInt32, r.Declarable ∧ r.preorder = p.steps) ∧
    (∀ e, decode records = .error e ↔ Malformed records e) ∧
    ∀ pos, Malformed records (.truncated pos) → pos = records.length := by
  refine ⟨fun p => ?_, fun e => ⟨malformed_of_decode, decode_of_malformed⟩,
    fun pos => eq_length_of_malformed⟩
  rw [decode_eq_ok_iff]
  refine and_congr_right fun _ => and_congr_right fun _ => ⟨?_, ExistsUnique.exists⟩
  rintro ⟨r, hd, hp⟩
  exact ⟨r, ⟨hd, hp⟩, fun r' hr' => Tree.preorder_inj (hr'.2.trans hp.symm)⟩

/-- The size of an inner base is compared before that of the outer one, and a base before a key is
missed. -/
theorem decode_exact_nested :
    let nested : List Record := [⟨3, 0, 9⟩, ⟨3, 1, 2⟩, ⟨5, 0, 0⟩, ⟨8, 1, 4⟩]
    let short : List Record := [⟨3, 0, 2⟩, ⟨8, 0, 7⟩, ⟨5, 0, 0⟩, ⟨4, 0, 1⟩]
    Malformed nested (.baseSize 1 2 1) ∧ Malformed short (.truncated 4) ∧ 4 = short.length ∧
      ∃! r : Tree UInt32, r.Declarable ∧ r.preorder = [.indexObject .get 2, .metatable,
        .root .globals, .upvalue 1, .frameLocal 2 1] := by
  intro nested short
  obtain ⟨-, hnested, -⟩ := decode_exact nested
  obtain ⟨-, hshort, hlength⟩ := decode_exact short
  obtain ⟨hwhole, -, -⟩ := decode_exact (short ++ [⟨0, 2, 1⟩])
  have htruncated : Malformed short (.truncated 4) := (hshort _).mp rfl
  exact ⟨(hnested _).mp rfl, htruncated, hlength 4 htruncated, ((hwhole ⟨_⟩).mp rfl).2.2⟩

end Path

end RemoteInspect
