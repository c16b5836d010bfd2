import RemoteInspect.Proofs.Handle.Restoring

namespace RemoteInspect

variable {κ μ : Type}

namespace Step

def frame? : Step → Option UInt16
  | frameLocal frame _ | frameFunction frame => some frame
  | root _ | kindMetatable _ | index .. | indexObject .. | upvalue _ | metatable | userPayload =>
    none

def relevel (move : UInt16 → UInt16) : Step → Step
  | frameLocal frame slot => frameLocal (move frame) slot
  | frameFunction frame => frameFunction (move frame)
  | s => s

theorem relevel_eq_self {s : Step} (h : s.frame? = none) (move : UInt16 → UInt16) :
    s.relevel move = s := by
  cases s <;> first | rfl | cases h

end Step

namespace Tree

def frames : Tree κ → List UInt16
  | frameLocal frame _ | frameFunction frame => [frame]
  | root _ | kindMetatable _ => []
  | index _ base _ | upvalue base _ | metatable base | userPayload base => base.frames
  | indexObject _ base key => base.frames ++ key.frames

def relevel (move : UInt16 → UInt16) : Tree κ → Tree κ
  | frameLocal frame slot => frameLocal (move frame) slot
  | frameFunction frame => frameFunction (move frame)
  | root r => root r
  | kindMetatable kind => kindMetatable kind
  | index lookup base key => index lookup (base.relevel move) key
  | indexObject lookup base key => indexObject lookup (base.relevel move) (key.relevel move)
  | upvalue base n => upvalue (base.relevel move) n
  | metatable base => metatable (base.relevel move)
  | userPayload base => userPayload (base.relevel move)

variable {move : UInt16 → UInt16}

@[simp] theorem frames_map (f : κ → μ) (t : Tree κ) : (t.map f).frames = t.frames := by
  induction t <;> simp_all [map, frames]

theorem relevel_map (f : κ → μ) (t : Tree κ) :
    (t.map f).relevel move = (t.relevel move).map f := by
  induction t <;> simp_all [map, relevel]

@[simp] theorem size_relevel (t : Tree κ) : (t.relevel move).size = t.size := by
  induction t <;> simp_all [relevel, size]

@[simp] theorem keys_relevel (t : Tree κ) : (t.relevel move).keys = t.keys := by
  induction t <;> simp_all [relevel, keys]

theorem declarable_relevel {r : Tree UInt32} (h : r.Declarable) :
    (r.relevel move).Declarable := by
  induction r <;> simp_all [relevel, Declarable]

theorem frames_preorder (r : Tree UInt32) : r.preorder.filterMap Step.frame? = r.frames := by
  induction r <;> simp_all [preorder, step, List.filterMap_cons, Step.frame?, frames]

theorem preorder_relevel (r : Tree UInt32) :
    (r.relevel move).preorder = r.preorder.map (Step.relevel move) := by
  induction r <;> simp_all [preorder, step, Step.relevel, relevel]

end Tree

namespace Handle

variable {move : UInt16 → UInt16} {h : Handle} {t : Tree Scalar}

def frames (h : Handle) : List UInt16 :=
  h.path.steps.filterMap Step.frame?

/-- The handle with each level in it moved, in bases and in keys. -/
def relevel (move : UInt16 → UInt16) (h : Handle) : Handle :=
  ⟨⟨h.path.steps.map (Step.relevel move)⟩, h.pool⟩

theorem Denotes.frames (ht : h.Denotes t) : h.frames = t.frames := by
  obtain ⟨r, hr, rfl⟩ := ht
  rw [Handle.frames, ← hr.preorder, Tree.frames_preorder, Tree.frames_map]

theorem Denotes.relevel (ht : h.Denotes t) (move : UInt16 → UInt16) :
    (h.relevel move).Denotes (t.relevel move) := by
  obtain ⟨r, hr, rfl⟩ := ht
  refine ⟨r.relevel move, ⟨Tree.declarable_relevel hr.declarable, ?_, ?_⟩, ?_⟩
  · rw [Tree.preorder_relevel, hr.preorder]
    rfl
  · rw [Tree.keys_relevel]
    exact hr.bounded
  · exact (Tree.relevel_map _ r).symm

theorem relevel_eq_self (hframes : h.frames = []) : h.relevel move = h := by
  have hsteps : h.path.steps.map (Step.relevel move) = h.path.steps := by
    refine (List.map_congr_left fun s hs => ?_).trans (List.map_id _)
    exact Step.relevel_eq_self (List.filterMap_eq_nil_iff.mp hframes s hs) move
  rw [relevel, hsteps]

theorem Built.relevel (hh : h.Built) (move : UInt16 → UInt16) : (h.relevel move).Built := by
  obtain ⟨t, ht⟩ := hh.denotes
  obtain ⟨r, hr, -⟩ := ht.relevel move
  exact built_iff_wellFormed.mpr (wellFormed_iff.mpr ⟨r, hr⟩)

end Handle

end RemoteInspect
