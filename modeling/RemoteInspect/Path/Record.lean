import RemoteInspect.Path.Defect
import RemoteInspect.Path.Step

namespace RemoteInspect

/-- The wire form of a step. What `frame` and `index` hold depends on the tag. -/
structure Record where
  tag : UInt8
  frame : UInt16
  index : UInt32
deriving DecidableEq, Repr

def Lookup.mode : Lookup → UInt16
  | get => 0
  | next => 1

def Lookup.ofMode? (mode : UInt16) : Option Lookup :=
  if mode = 0 then some .get else if mode = 1 then some .next else none

namespace Record

def ofStep : Step → Record
  | .frameLocal frame slot => ⟨0, frame, slot⟩
  | .frameFunction frame => ⟨1, frame, 0⟩
  | .index lookup key => ⟨2, lookup.mode, key⟩
  | .indexObject lookup baseSize => ⟨3, lookup.mode, baseSize⟩
  | .upvalue index => ⟨4, 0, index⟩
  | .root .globals => ⟨5, 0, 0⟩
  | .root .registry => ⟨6, 0, 0⟩
  | .root .mainThread => ⟨7, 0, 0⟩
  | .metatable => ⟨8, 0, 0⟩
  | .kindMetatable kind => ⟨8, 1, kind.code⟩
  | .userPayload => ⟨9, 0, 0⟩

def lookup (i : Nat) (r : Record) : Except Path.Defect Lookup :=
  match Lookup.ofMode? r.frame with
  | some lookup => .ok lookup
  | none => .error (.invalidMode i r.frame)

def step (i : Nat) (r : Record) : Except Path.Defect Step :=
  match r.tag with
  | 0 => .ok (.frameLocal r.frame r.index)
  | 1 => .ok (.frameFunction r.frame)
  | 2 => (r.lookup i).map (.index · r.index)
  | 3 => (r.lookup i).map (.indexObject · r.index)
  | 4 => .ok (.upvalue r.index)
  | 5 => .ok (.root .globals)
  | 6 => .ok (.root .registry)
  | 7 => .ok (.root .mainThread)
  | 8 =>
    if r.frame = 0 then .ok .metatable
    else if r.frame = 1 then
      match Kind.ofCode? r.index with
      | some kind => .ok (.kindMetatable kind)
      | none => .error (.invalidKind i r.index)
    else .error (.invalidMode i r.frame)
  | 9 => .ok .userPayload
  | tag => .error (.unknownTag i tag)

theorem step_ofStep (i : Nat) (s : Step) : (ofStep s).step i = .ok s := by
  cases s with
  | root r => cases r <;> rfl
  | index lookup key => cases lookup <;> rfl
  | indexObject lookup size => cases lookup <;> rfl
  | kindMetatable k => cases k <;> rfl
  | _ => rfl

end Record

end RemoteInspect
