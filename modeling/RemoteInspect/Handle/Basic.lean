import RemoteInspect.Fault
import RemoteInspect.Path.Basic
import RemoteInspect.Pool

namespace RemoteInspect

/-- A lazy reference: the path that derives a value of the target again, and the scalars that
its lookups use. -/
structure Handle where
  path : Path
  pool : Pool
deriving DecidableEq, Repr

namespace Handle

def leaf (s : Step) (_ : s.shape = .leaf) : Handle := ⟨⟨[s]⟩, .empty⟩

def root (r : Root) : Handle := leaf (.root r) rfl

def frameLocal (frame : UInt16) (slot : UInt32) : Handle := leaf (.frameLocal frame slot) rfl

def frameFunction (frame : UInt16) : Handle := leaf (.frameFunction frame) rfl

def kindMetatable (kind : Kind) : Handle := leaf (.kindMetatable kind) rfl

def dangling? (path : Path) (pool : Pool) : Option (Nat × UInt32) :=
  path.steps.zipIdx.findSome? fun (s, pos) =>
    match s.reference? with
    | some reference => if pool.size < reference.toNat then some (pos, reference) else none
    | none => none

def ofParts (path : Path) (pool : Pool) : Except Path.Defect Handle :=
  match dangling? path pool with
  | some (pos, reference) => .error (.poolReference pos reference pool.size)
  | none => .ok ⟨path, pool⟩

def extend (h : Handle) (s : Step) (_ : s.shape = .based) : Handle := ⟨⟨s :: h.path.steps⟩, h.pool⟩

def upvalue (h : Handle) (index : UInt32) : Handle := h.extend (.upvalue index) rfl

def metatable (h : Handle) : Handle := h.extend .metatable rfl

def userPayload (h : Handle) : Handle := h.extend .userPayload rfl

/-- Sizes and references are 32-bit words. -/
def wordLimit : Nat := UInt32.size

def constantLookup (h : Handle) (lookup : Lookup) (key : Scalar) : Except Fault Handle :=
  if key = .nil then .ok (h.extend (.index lookup 0) rfl)
  else if wordLimit ≤ h.pool.size + 1 then .error .poolTooLarge
  else
    let reference := .ofNat (h.pool.size + 1)
    .ok (extend ⟨h.path, h.pool.push key⟩ (.index lookup reference) rfl)

def index (h : Handle) (key : Scalar) : Except Fault Handle :=
  if key = .nil then .error .nilKey else h.constantLookup .get key

def nextKey (h : Handle) (last : Scalar) : Except Fault Handle :=
  h.constantLookup .next last

/-- A step whose pool is placed after `offset` other entries. Reference 0 stays. -/
def shift (offset : Nat) : Step → Except Fault Step
  | .index lookup key =>
    if key = 0 then .ok (.index lookup 0)
    else if wordLimit ≤ key.toNat + offset then .error .referenceTooLarge
    else .ok (.index lookup (.ofNat (key.toNat + offset)))
  | s => .ok s

def indexObject (h : Handle) (lookup : Lookup) (key : Handle) : Except Fault Handle := do
  if wordLimit ≤ h.pool.size then throw .poolTooLarge
  if wordLimit ≤ h.path.size then throw .baseTooLarge
  let keySteps ← key.path.steps.mapM (shift h.pool.size)
  return ⟨⟨.indexObject lookup (.ofNat h.path.size) :: h.path.steps ++ keySteps⟩,
    h.pool.append key.pool⟩

def agrees (h k : Handle) : Bool :=
  h.path = k.path && h.pool.agrees k.pool

end Handle

end RemoteInspect
