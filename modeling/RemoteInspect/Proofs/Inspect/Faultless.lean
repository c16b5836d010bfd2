import RemoteInspect.Proofs.Handle.Description
import RemoteInspect.Proofs.Inspect.Capacity

namespace RemoteInspect

open Handle (wordLimit)

namespace Value

def entries : Value → Nat
  | scalar _ => 0
  | handle h => h.pool.size

def steps : Value → Nat
  | scalar _ => 0
  | handle h => h.path.size

/-- The entries that the value adds to a pool as a key, which may be recorded as a constant. -/
def growth : Value → Nat
  | scalar s => if s = .nil then 0 else 1
  | handle h => max 1 h.pool.size

end Value

namespace Inspect

/-- Words hold the entries and the steps of all that the operation puts together. The handle of the
value after a key looks that key up in the base once more. -/
def Request.Fits : Request → Prop
  | index base key => base.entries + key.growth < wordLimit ∧ base.steps < wordLimit
  | next base last =>
    base.entries + max 1 (base.entries + (last.getD (.scalar .nil)).growth) < wordLimit ∧
      base.steps < wordLimit
  | _ => True

def Call.Fits : Call → Prop
  | request r => r.Fits
  | _ => True

variable {limits : Limits} {t : Target} {b k : Handle}

end Inspect

end RemoteInspect
