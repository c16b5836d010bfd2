import RemoteInspect.Tree.Basic

namespace RemoteInspect.Tree

variable {κ μ : Type}

def keys : Tree κ → List κ
  | frameLocal .. | frameFunction _ | root _ | kindMetatable _ => []
  | index _ base key => key :: base.keys
  | upvalue base _ | metatable base | userPayload base => base.keys
  | indexObject _ base key => base.keys ++ key.keys

@[simp] theorem size_map (f : κ → μ) (t : Tree κ) : (t.map f).size = t.size := by
  induction t <;> simp_all [map, size]

theorem map_congr {f g : κ → μ} {t : Tree κ} (h : ∀ key ∈ t.keys, f key = g key) :
    t.map f = t.map g := by
  induction t with
  | frameLocal | frameFunction | root | kindMetatable => rfl
  | index lookup base key ih =>
    simp only [keys, List.forall_mem_cons] at h
    rw [map, map, h.1, ih h.2]
  | indexObject lookup base key ihb ihk =>
    simp only [keys, List.forall_mem_append] at h
    rw [map, map, ihb h.1, ihk h.2]
  | upvalue base n ih | metatable base ih | userPayload base ih =>
    rw [map, map, ih h]

theorem map_map {ν : Type} (f : κ → μ) (g : μ → ν) (t : Tree κ) :
    (t.map f).map g = t.map (g ∘ f) := by
  induction t <;> simp_all [map]

theorem keys_map (f : κ → μ) (t : Tree κ) : (t.map f).keys = t.keys.map f := by
  induction t <;> simp_all [map, keys]

theorem declarable_map {r : Tree UInt32} (hr : r.Declarable) (f : UInt32 → UInt32) :
    (r.map f).Declarable := by
  induction r <;> simp_all [map, Declarable]

theorem index_mem_preorder {r : Tree UInt32} {key : UInt32} (h : key ∈ r.keys) :
    ∃ lookup, Step.index lookup key ∈ r.preorder := by
  induction r with
  | frameLocal | frameFunction | root | kindMetatable => simp [keys] at h
  | index lookup base key' ih =>
    obtain rfl | h := List.mem_cons.mp h
    · exact ⟨lookup, by simp [preorder, step]⟩
    · obtain ⟨lookup, hm⟩ := ih h
      exact ⟨lookup, by simp [preorder, hm]⟩
  | indexObject lookup base key' ihb ihk =>
    obtain h | h := List.mem_append.mp h
    · obtain ⟨lookup, hm⟩ := ihb h
      exact ⟨lookup, by simp [preorder, hm]⟩
    · obtain ⟨lookup, hm⟩ := ihk h
      exact ⟨lookup, by simp [preorder, hm]⟩
  | upvalue base n ih | metatable base ih | userPayload base ih =>
    obtain ⟨lookup, hm⟩ := ih h
    exact ⟨lookup, by simp [preorder, hm]⟩

theorem mem_keys_of_index_mem {r : Tree UInt32} {lookup : Lookup} {key : UInt32}
    (h : Step.index lookup key ∈ r.preorder) : key ∈ r.keys := by
  induction r with
  | frameLocal | frameFunction | root | kindMetatable => simp [preorder, step] at h
  | index lookup' base key' ih =>
    obtain h | h := List.mem_cons.mp h
    · cases h
      exact List.mem_cons_self
    · exact List.mem_cons_of_mem _ (ih h)
  | indexObject lookup' base key' ihb ihk =>
    obtain h | h := List.mem_cons.mp h
    · cases h
    · exact List.mem_append.mpr ((List.mem_append.mp h).imp ihb ihk)
  | upvalue base n ih | metatable base ih | userPayload base ih =>
    obtain h | h := List.mem_cons.mp h
    · cases h
    · exact ih h

/-- A tree is read off the front of its steps in one way only. -/
theorem preorder_append_inj {r r' : Tree UInt32} {rest rest' : List Step}
    (h : r.preorder ++ rest = r'.preorder ++ rest') : r = r' ∧ rest = rest' := by
  induction r generalizing r' rest rest' with
  | frameLocal | frameFunction | root | kindMetatable =>
    cases r' <;> simp_all [preorder, step]
  | index lookup base key ih =>
    cases r' with
    | index lookup' base' key' =>
      simp only [preorder, step, List.cons_append, List.cons.injEq, Step.index.injEq] at h
      obtain ⟨⟨rfl, rfl⟩, h⟩ := h
      obtain ⟨rfl, rfl⟩ := ih h
      exact ⟨rfl, rfl⟩
    | _ => simp [preorder, step] at h
  | indexObject lookup base key ihb ihk =>
    cases r' with
    | indexObject lookup' base' key' =>
      simp only [preorder, step, List.cons_append, List.append_assoc, List.cons.injEq,
        Step.indexObject.injEq] at h
      obtain ⟨⟨rfl, _⟩, h⟩ := h
      obtain ⟨rfl, hk⟩ := ihb h
      obtain ⟨rfl, rfl⟩ := ihk hk
      exact ⟨rfl, rfl⟩
    | _ => simp [preorder, step] at h
  | upvalue base n ih =>
    cases r' with
    | upvalue base' n' =>
      simp only [preorder, step, List.cons_append, List.cons.injEq, Step.upvalue.injEq] at h
      obtain ⟨rfl, h⟩ := h
      obtain ⟨rfl, rfl⟩ := ih h
      exact ⟨rfl, rfl⟩
    | _ => simp [preorder, step] at h
  | metatable base ih =>
    cases r' with
    | metatable base' =>
      obtain ⟨rfl, rfl⟩ := ih (List.cons.inj h).2
      exact ⟨rfl, rfl⟩
    | _ => simp [preorder, step] at h
  | userPayload base ih =>
    cases r' with
    | userPayload base' =>
      obtain ⟨rfl, rfl⟩ := ih (List.cons.inj h).2
      exact ⟨rfl, rfl⟩
    | _ => simp [preorder, step] at h

theorem preorder_inj {r r' : Tree UInt32} (h : r.preorder = r'.preorder) : r = r' :=
  (preorder_append_inj (congrArg (· ++ []) h)).1

end RemoteInspect.Tree
