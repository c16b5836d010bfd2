import RemoteInspect.Fault
import RemoteInspect.Target.Basic

namespace RemoteInspect.Target

/-- Sizes of the working area are 64-bit words. -/
def sizeLimit : Nat := UInt64.size

def reserve (t : Target) (slots : Nat) : Except Fault Bool :=
  if sizeLimit ≤ t.pinned + slots then .error .outOfRange
  else .ok (t.pinned + slots ≤ t.capacity)

/-- Takes a slot, whether or not it was reserved. -/
def pin (t : Target) : Target := { t with pinned := t.pinned + 1 }

def release (t : Target) : Target := { t with pinned := t.pinned - 1 }

theorem release_pin (t : Target) : t.pin.release = t := rfl

end RemoteInspect.Target
