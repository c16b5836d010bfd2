import RemoteInspect.Path.Layout
import RemoteInspect.Path.Record

namespace RemoteInspect

structure Path where
  steps : List Step
deriving DecidableEq, Repr

namespace Path

def size (p : Path) : Nat := p.steps.length

def encode (p : Path) : List Record :=
  p.steps.map Record.ofStep

/-- Records are decoded in order before their layout is checked. -/
def decode (records : List Record) : Except Defect Path := do
  if records.isEmpty then throw .empty
  let steps ← records.zipIdx.mapM fun (r, i) => r.step i
  let size ← checkedSize steps
  if size ≠ steps.length then throw (.trailing size steps.length)
  return ⟨steps⟩

end Path

end RemoteInspect
