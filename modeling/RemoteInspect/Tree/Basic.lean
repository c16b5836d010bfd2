import RemoteInspect.Handle.Basic

namespace RemoteInspect

/-- Constant keys are references in the tree of a path, and scalars in the tree of a handle. -/
inductive Tree (κ : Type)
  | frameLocal (frame : UInt16) (slot : UInt32)
  | frameFunction (frame : UInt16)
  | root (r : Root)
  | kindMetatable (kind : Kind)
  | index (lookup : Lookup) (base : Tree κ) (key : κ)
  | indexObject (lookup : Lookup) (base key : Tree κ)
  | upvalue (base : Tree κ) (index : UInt32)
  | metatable (base : Tree κ)
  | userPayload (base : Tree κ)
deriving DecidableEq, Repr

namespace Tree

variable {κ μ : Type}

def map (f : κ → μ) : Tree κ → Tree μ
  | frameLocal frame slot => frameLocal frame slot
  | frameFunction frame => frameFunction frame
  | root r => root r
  | kindMetatable kind => kindMetatable kind
  | index lookup base key => index lookup (base.map f) (f key)
  | indexObject lookup base key => indexObject lookup (base.map f) (key.map f)
  | upvalue base n => upvalue (base.map f) n
  | metatable base => metatable (base.map f)
  | userPayload base => userPayload (base.map f)

def size : Tree κ → Nat
  | frameLocal .. | frameFunction _ | root _ | kindMetatable _ => 1
  | index _ base _ | upvalue base _ | metatable base | userPayload base => 1 + base.size
  | indexObject _ base key => 1 + base.size + key.size

def height : Tree κ → Nat
  | frameLocal .. | frameFunction _ | root _ | kindMetatable _ => 1
  | index _ base _ | upvalue base _ | metatable base | userPayload base => 1 + base.height
  | indexObject _ base key => 1 + max base.height key.height

def step : Tree UInt32 → Step
  | frameLocal frame slot => .frameLocal frame slot
  | frameFunction frame => .frameFunction frame
  | root r => .root r
  | kindMetatable kind => .kindMetatable kind
  | index lookup _ key => .index lookup key
  | indexObject lookup base _ => .indexObject lookup (.ofNat base.size)
  | upvalue _ n => .upvalue n
  | metatable _ => .metatable
  | userPayload _ => .userPayload

def preorder (t : Tree UInt32) : List Step :=
  t.step :: match t with
    | frameLocal .. | frameFunction _ | root _ | kindMetatable _ => []
    | index _ base _ | upvalue base _ | metatable base | userPayload base => base.preorder
    | indexObject _ base key => base.preorder ++ key.preorder

/-- Every base is small enough for its size to be declared. -/
def Declarable : Tree UInt32 → Prop
  | frameLocal .. | frameFunction _ | root _ | kindMetatable _ => True
  | index _ base _ | upvalue base _ | metatable base | userPayload base => base.Declarable
  | indexObject _ base key => base.size < UInt32.size ∧ base.Declarable ∧ key.Declarable

theorem length_preorder (t : Tree UInt32) : t.preorder.length = t.size := by
  induction t <;> simp_all [preorder, size] <;> omega

end Tree

def Handle.Means (h : Handle) (t : Tree Scalar) : Prop :=
  ∃ r : Tree UInt32, r.Declarable ∧ r.preorder = h.path.steps ∧ r.map h.pool.constant = t

end RemoteInspect
