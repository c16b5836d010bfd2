import RemoteInspect.Fault
import RemoteInspect.Path.Basic

namespace RemoteInspect.Path

/-- A subpath: the steps from its first one to the end of the path, and the position of that
one. -/
structure Node where
  steps : List Step
  offset : Nat
deriving DecidableEq, Repr

def root (p : Path) : Node := ⟨p.steps, 0⟩

namespace Node

def step? (n : Node) : Option Step := n.steps.head?

def size? (n : Node) : Option Nat := sizeOf? n.steps

def base (n : Node) : Except Fault Node :=
  match n.steps with
  | [] => .error .outOfRange
  | s :: rest => match s.shape with
    | .leaf => .error (.noBase s)
    | _ => .ok ⟨rest, n.offset + 1⟩

def key (n : Node) : Except Fault Node :=
  match n.steps with
  | [] => .error .outOfRange
  | s :: rest => match s.shape with
    | .keyed baseSize =>
      if baseSize ≤ rest.length then .ok ⟨rest.drop baseSize, n.offset + 1 + baseSize⟩
      else .error .outOfRange
    | _ => .error (.noKey s)

theorem length_base {n m : Node} (h : n.base = .ok m) : m.steps.length < n.steps.length := by
  obtain ⟨_ | ⟨s, rest⟩, offset⟩ := n
  · cases h
  · rw [base] at h
    dsimp only at h
    split at h <;> cases h
    exact Nat.lt_succ_self _

theorem length_key {n m : Node} (h : n.key = .ok m) : m.steps.length < n.steps.length := by
  obtain ⟨_ | ⟨s, rest⟩, offset⟩ := n
  · cases h
  · rw [key] at h
    dsimp only at h
    split at h
    · split at h <;> cases h
      exact Nat.lt_succ_of_le (List.drop_sublist ..).length_le
    · cases h

def preorder (steps : List Step) (offset : Nat) : List Node :=
  match steps with
  | [] => []
  | s :: rest => ⟨s :: rest, offset⟩ :: match s.shape with
    | .leaf => []
    | .based => preorder rest (offset + 1)
    | .keyed baseSize =>
      preorder rest (offset + 1) ++ preorder (rest.drop baseSize) (offset + 1 + baseSize)
termination_by steps.length

end Node

def nodes (p : Path) : List Node :=
  Node.preorder p.steps 0

end RemoteInspect.Path
