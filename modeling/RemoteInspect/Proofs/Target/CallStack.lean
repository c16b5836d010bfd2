import RemoteInspect.Proofs.Except
import RemoteInspect.Target.Mutation

namespace RemoteInspect.Target

variable {t u : Target} {function value : Live} {locals : List Binding} {level : UInt16}
  {slot : UInt32}

/-- The calls in the order in which they were entered. The innermost one stands at the end. -/
def callStack (t : Target) : Array Frame :=
  t.frames.reverse.toArray

/-- Levels count from the end, and where they pass the start there is no call. -/
def callIndex? (t : Target) (level : UInt16) : Option Nat :=
  if 1 + level.toNat ≤ t.callStack.size then some (t.callStack.size - (1 + level.toNat)) else none

theorem size_callStack (t : Target) : t.callStack.size = t.frames.length := by
  rw [callStack, List.size_toArray, List.length_reverse]

theorem callIndex?_eq_some {i : Nat} (h : t.callIndex? level = some i) :
    level.toNat < t.frames.length ∧ i = t.frames.length - 1 - level.toNat := by
  rw [callIndex?, size_callStack] at h
  split at h <;> cases h
  omega

theorem frame?_eq_callStack (t : Target) (level : UInt16) :
    t.frame? level = (t.callIndex? level).bind fun i => t.callStack[i]? := by
  cases hi : t.callIndex? level with
  | none =>
    rw [callIndex?, size_callStack] at hi
    split at hi <;> cases hi
    exact List.getElem?_eq_none (by omega)
  | some i =>
    obtain ⟨hlt, rfl⟩ := callIndex?_eq_some hi
    have hrev : level.toNat < t.frames.reverse.length := by rwa [List.length_reverse]
    have hget := List.getElem?_reverse hrev
    rw [List.reverse_reverse, List.length_reverse] at hget
    rw [frame?, hget, Option.bind_some, callStack, List.getElem?_toArray]

theorem callStack_pushFrame (h : t.pushFrame function locals = .ok u) :
    ∃ id, function = .object id ∧ u.callStack = t.callStack.push ⟨id, locals⟩ := by
  cases function with
  | scalar s => cases h
  | object id =>
    cases h
    exact ⟨id, rfl, by simp [callStack]⟩

theorem callStack_popFrame (h : t.popFrame = .ok u) :
    t.callStack ≠ #[] ∧ u.callStack = t.callStack.pop := by
  rw [popFrame] at h
  split at h <;> cases h
  rename_i frame frames hframes
  constructor <;> simp [callStack, hframes]

theorem reverse_set {frames : List Frame} {n : Nat} (h : n < frames.length) (frame : Frame) :
    (frames.set n frame).reverse = frames.reverse.set (frames.length - 1 - n) frame := by
  apply List.ext_getElem
  · simp
  · intro i hi _
    have hlt : i < frames.length := by simpa using hi
    have hiff : n = frames.length - 1 - i ↔ frames.length - 1 - n = i := by omega
    simp only [List.getElem_reverse, List.getElem_set, List.length_set, hiff]

theorem callStack_setLocal (h : t.setLocal level slot value = .ok u) :
    ∃ i frame locals, t.callIndex? level = some i ∧ t.callStack[i]? = some frame ∧
      rebind frame.locals slot value = .ok locals ∧
      u.callStack = t.callStack.setIfInBounds i { frame with locals } := by
  cases hframe : t.frame? level with
  | none => simp [setLocal, hframe] at h
  | some frame =>
    simp only [setLocal, hframe, Except.bind_eq_ok_iff] at h
    obtain ⟨locals, hlocals, h⟩ := h
    cases h
    rw [frame?_eq_callStack] at hframe
    obtain ⟨i, hi, hcall⟩ := Option.bind_eq_some_iff.mp hframe
    refine ⟨i, frame, locals, hi, hcall, hlocals, ?_⟩
    obtain ⟨hlt, rfl⟩ := callIndex?_eq_some hi
    rw [callStack, reverse_set hlt, callStack, List.setIfInBounds_toArray]

end RemoteInspect.Target
