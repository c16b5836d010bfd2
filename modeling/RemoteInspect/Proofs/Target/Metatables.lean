import RemoteInspect.Proofs.Target.Reading

namespace RemoteInspect

namespace Object

def withMetatable (metatable : Option ObjectId) : Object → Object
  | table contents => table { contents with metatable }
  | userdata payload _ => userdata payload metatable
  | o => o

def bare (o : Object) : Object := o.withMetatable none

theorem bare_withMetatable (metatable : Option ObjectId) (o : Object) :
    (o.withMetatable metatable).bare = o.bare := by
  cases o <;> rfl

end Object

namespace Target

variable {t u : Target} {v w : Live} {kind : Kind}

/-- What is assigned to `v` is the metatable of `w`. -/
def InScope (t : Target) (v w : Live) : Prop :=
  ∃ kind, t.kind? v = some kind ∧ if kind.hasOwnMetatable then w = v else t.kind? w = some kind

theorem inScope_iff (hk : t.kind? v = some kind) :
    t.InScope v w ↔ if kind.hasOwnMetatable then w = v else t.kind? w = some kind := by
  constructor
  · rintro ⟨kind', hk', hw⟩
    cases hk.symm.trans hk'
    exact hw
  · exact fun hw => ⟨kind, hk, hw⟩

structure Assigned (t : Target) (v : Live) (metatable : Option Live) (u : Target) : Prop where
  inScope : ∀ w, t.InScope v w → u.metatable? w = metatable
  elsewhere : ∀ w, ¬ t.InScope v w → u.metatable? w = t.metatable? w
  shared : ∀ kind, (kind.hasOwnMetatable ∨ t.kind? v ≠ some kind) → u.shared kind = t.shared kind
  objects : u.heap.map Object.bare = t.heap.map Object.bare
  frames : u.frames = t.frames
  status : u.status = t.status
  pinned : u.pinned = t.pinned
  capacity : u.capacity = t.capacity

theorem assigned_replace {id : ObjectId} {o : Object} (ho : t.heap[id]? = some o)
    (hown : o.kind.hasOwnMetatable) (metatable : Option ObjectId) :
    t.Assigned (.object id) (metatable.map Live.object)
      (t.replace id (o.withMetatable metatable)) := by
  have hlt : id < t.heap.size := (Array.getElem?_eq_some_iff.mp ho).1
  have hscope : ∀ w, t.InScope (.object id) w ↔ w = .object id := fun w => by
    have hkind : t.kind? (.object id) = some o.kind := by simp [kind?, ho]
    rw [inScope_iff hkind, if_pos hown]
  have hwritten : (t.replace id (o.withMetatable metatable)).heap[id]? =
      some (o.withMetatable metatable) := by
    simp [replace, hlt]
  have hkept : ∀ id', id' ≠ id →
      (t.replace id (o.withMetatable metatable)).heap[id']? = t.heap[id']? :=
    fun id' hne => Array.getElem?_setIfInBounds_ne hne.symm
  refine
    { inScope := fun w hw => ?_, elsewhere := fun w hw => ?_, shared := fun _ _ => rfl,
      objects := ?_, frames := rfl, status := rfl, pinned := rfl, capacity := rfl }
  · rw [(hscope w).mp hw]
    cases o with
    | table | userdata =>
      rw [metatable?, object?, hwritten]
      rfl
    | function | thread => cases hown
  · rw [hscope] at hw
    cases w with
    | scalar s => rfl
    | object id' =>
      have hne : id' ≠ id := fun he => hw (congrArg Live.object he)
      simp only [metatable?, object?, kind?, hkept id' hne]
      rfl
  · apply Array.ext_getElem?
    intro id'
    rw [Array.getElem?_map, Array.getElem?_map]
    by_cases hid : id' = id
    · subst hid
      rw [hwritten, ho, Option.map_some, Option.map_some, Object.bare_withMetatable]
    · rw [hkept id' hid]

theorem assigned_share (hk : t.kind? v = some kind) (hshares : kind.hasOwnMetatable = false)
    (metatable : Option ObjectId) :
    t.Assigned v (metatable.map Live.object) (t.share kind metatable) := by
  have hscope : ∀ w, t.InScope v w ↔ t.kind? w = some kind := fun w => by
    rw [inScope_iff hk, hshares, if_neg (by simp)]
  refine
    { inScope := fun w hw => ?_, elsewhere := fun w hw => ?_, shared := fun kind' hkind' => ?_,
      objects := rfl, frames := rfl, status := rfl, pinned := rfl, capacity := rfl }
  · have hw' : (t.share kind metatable).kind? w = some kind := (hscope w).mp hw
    rw [metatable?_of_shared hw' hshares]
    exact congrArg (Option.map Live.object) (if_pos rfl)
  · rw [hscope] at hw
    have hshared : (t.kind? w).bind (t.share kind metatable).shared =
        (t.kind? w).bind t.shared := by
      cases hkind : t.kind? w with
      | none => rfl
      | some kind' => exact if_neg fun he : kind' = kind => hw (he ▸ hkind)
    have hkind : (t.share kind metatable).kind? w = t.kind? w := rfl
    have hobject : (t.share kind metatable).object? w = t.object? w := rfl
    rw [metatable?, metatable?, hobject, hkind, hshared]
  · refine if_neg ?_
    rintro rfl
    obtain hown | hne := hkind'
    · rw [hshares] at hown
      cases hown
    · exact hne hk

theorem exists_tableId {x : Live} (h : t.kind? x = some .table) :
    ∃ id, x = .object id ∧ t.tableId x = .ok id := by
  cases x with
  | scalar s => cases s <;> cases h
  | object id =>
    obtain ⟨o, ho, hkind⟩ := Option.map_eq_some_iff.mp h
    cases o with
    | table contents => exact ⟨id, rfl, by simp [tableId, ho]⟩
    | function | userdata | thread => cases hkind

theorem exists_setMetatable (hv : t.Owns v) {metatable : Option Live}
    (hm : ∀ x, metatable = some x → t.kind? x = some .table) :
    ∃ u, t.setMetatable v metatable = .ok u ∧ t.Assigned v metatable u := by
  obtain ⟨id?, rfl, hid⟩ : ∃ id?, metatable = Option.map Live.object id? ∧
      metatable.mapM t.tableId = .ok id? := by
    cases metatable with
    | none => exact ⟨none, rfl, rfl⟩
    | some x =>
      obtain ⟨id, rfl, hid⟩ := exists_tableId (hm x rfl)
      exact ⟨some id, rfl, by simp [hid]⟩
  cases v with
  | scalar s =>
    refine ⟨t.share s.kind id?, by simp [setMetatable, hid], ?_⟩
    exact assigned_share rfl (kind_hasOwnMetatable s) id?
  | object id =>
    obtain ⟨kind, hk⟩ := hv
    obtain ⟨o, ho, rfl⟩ := Option.map_eq_some_iff.mp hk
    cases o with
    | table | userdata =>
      exact ⟨_, by simp [setMetatable, hid, ho]; rfl, assigned_replace ho rfl id?⟩
    | function | thread =>
      exact ⟨_, by simp [setMetatable, hid, ho], assigned_share hk rfl id?⟩

end Target

end RemoteInspect
