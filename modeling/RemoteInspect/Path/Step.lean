import RemoteInspect.Kind

namespace RemoteInspect

inductive Root
  | globals | registry | mainThread
deriving DecidableEq, Repr

def Root.name : Root → String
  | globals => "Global"
  | registry => "Registry"
  | mainThread => "MainThread"

/-- How a lookup uses its key: to find its value, or the key that follows it. -/
inductive Lookup
  | get | next
deriving DecidableEq, Repr

/-- One record of a path. A constant key is a reference into the pool of the handle; an object
key is a subpath, found after the `baseSize` records of the base. -/
inductive Step
  | frameLocal (frame : UInt16) (slot : UInt32)
  | frameFunction (frame : UInt16)
  | root (root : Root)
  | kindMetatable (kind : Kind)
  | index (lookup : Lookup) (key : UInt32)
  | indexObject (lookup : Lookup) (baseSize : UInt32)
  | upvalue (index : UInt32)
  | metatable
  | userPayload
deriving DecidableEq, Repr

inductive Shape
  | leaf
  | based
  | keyed (baseSize : Nat)
deriving DecidableEq, Repr

namespace Step

def shape : Step → Shape
  | frameLocal .. | frameFunction _ | root _ | kindMetatable _ => .leaf
  | index .. | upvalue _ | metatable | userPayload => .based
  | indexObject _ baseSize => .keyed baseSize.toNat

def text : Step → String
  | frameLocal frame slot => s!"FrameLocal frame={frame} slot={slot}"
  | frameFunction frame => s!"FrameFunction frame={frame}"
  | root r => r.name
  | kindMetatable kind => "Metatable kind=" ++ kind.name
  | index .get key => s!"Index key=#{key}"
  | index .next key => s!"Next key=#{key}"
  | indexObject .get size => s!"IndexObject base={size}"
  | indexObject .next size => s!"NextObject base={size}"
  | upvalue n => s!"Upvalue {n}"
  | metatable => "Metatable"
  | userPayload => "UserPayload"

def reference? : Step → Option UInt32
  | index _ key => if key = 0 then none else some key
  | _ => none

end Step

end RemoteInspect
