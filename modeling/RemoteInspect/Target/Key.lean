import RemoteInspect.Target.Live

namespace RemoteInspect

/-- What tells the slots of a table apart. A float that denotes an integer is that integer, so
`float` holds the others. -/
inductive Key
  | boolean (b : Bool)
  | integer (i : Int64)
  | float (x : Binary64)
  | string (bytes : List UInt8)
  | pointer (p : UInt64)
  | object (id : ObjectId)
deriving DecidableEq, Repr

namespace Key

def ofLive? : Live → Option Key
  | .scalar .nil => none
  | .scalar (.boolean b) => some (.boolean b)
  | .scalar (.integer i) => some (.integer i)
  | .scalar (.float x) =>
    if x.isNaN then none
    else match x.toInteger? with
      | some i => some (.integer i)
      | none => some (.float x)
  | .scalar (.string bytes) => some (.string bytes)
  | .scalar (.pointer p) => some (.pointer p)
  | .object id => some (.object id)

def live : Key → Live
  | boolean b => .scalar (.boolean b)
  | integer i => .scalar (.integer i)
  | float x => .scalar (.float x)
  | string bytes => .scalar (.string bytes)
  | pointer p => .scalar (.pointer p)
  | object id => .object id

end Key

end RemoteInspect
