import RemoteInspect.Scalar

namespace RemoteInspect

/-- A place in the heap. Places are never used again. -/
abbrev ObjectId := Nat

def ObjectId.address (id : ObjectId) : Nat :=
  0x100000 + 0x40 * id

inductive Live
  | scalar (s : Scalar)
  | object (id : ObjectId)
deriving DecidableEq, Repr

namespace Live

def nil : Live := .scalar .nil

/-- The copy that crosses the boundary; objects stay. -/
def copy? : Live → Option Scalar
  | scalar s => some s
  | object _ => none

def toBoolean : Live → Bool
  | scalar .nil | scalar (.boolean false) => false
  | _ => true

def toInteger? : Live → Option Int64
  | scalar (.integer i) => some i
  | _ => none

def toFloat : Live → Binary64
  | scalar (.integer i) => .ofInteger i
  | scalar (.float x) => x
  | _ => ⟨0⟩

def toBytes : Live → List UInt8
  | scalar (.string bytes) => bytes
  | _ => []

/-- Where a value is. A string has no place of its own. -/
def address? : Live → Option Nat
  | object id => some id.address
  | scalar (.pointer p) => some p.toNat
  | scalar (.string _) => none
  | scalar _ => some 0

/-- What the readers for a kind give. -/
def readAs (v : Live) : Kind → Option Scalar
  | .nil => some .nil
  | .boolean => some (.boolean v.toBoolean)
  | .number => match v.toInteger? with
    | some i => some (.integer i)
    | none => some (.float v.toFloat)
  | .string => some (.string v.toBytes)
  | .pointer => v.address?.map fun p => .pointer (UInt64.ofNat p)
  | .table | .function | .userdata | .thread => none

end Live

end RemoteInspect
