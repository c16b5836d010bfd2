import RemoteInspect.Scalar

namespace RemoteInspect

/-- The scalars that the lookups of a handle use. They are referenced from 1; reference 0 stands
for nil. -/
structure Pool where
  entries : List Scalar
deriving DecidableEq, Repr

namespace Pool

def empty : Pool := ⟨[]⟩

def size (p : Pool) : Nat := p.entries.length

def get? (p : Pool) (reference : UInt32) : Option Scalar :=
  if reference = 0 then none else p.entries[reference.toNat - 1]?

def constant (p : Pool) (reference : UInt32) : Scalar :=
  (p.get? reference).getD .nil

def push (p : Pool) (s : Scalar) : Pool := ⟨p.entries ++ [s]⟩

def append (p q : Pool) : Pool := ⟨p.entries ++ q.entries⟩

def agrees (p q : Pool) : Bool :=
  p.size = q.size && (p.entries.zip q.entries).all fun (s, t) => s.agrees t

end Pool

end RemoteInspect
