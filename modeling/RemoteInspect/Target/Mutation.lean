import RemoteInspect.Fault
import RemoteInspect.Target.Basic

namespace RemoteInspect.Target

variable (t : Target)

def allocate (o : Object) : Live × Target :=
  (.object t.heap.size, { t with heap := t.heap.push o })

def newTable : Live × Target := t.allocate (.table .empty)

def newThread : Live × Target := t.allocate .thread

def newNative (address : UInt64) : Live × Target := t.allocate (.function (.native address) [])

def newClosure (source : String) (firstLine lastLine : Int64) (upvalues : List Binding) :
    Live × Target :=
  t.allocate (.function (.script source firstLine lastLine) upvalues)

def newUserdata (payload : Option Live) : Live × Target := t.allocate (.userdata payload none)

def replace (id : ObjectId) (o : Object) : Target :=
  { t with heap := t.heap.setIfInBounds id o }

def set (table key value : Live) : Except Fault Target :=
  match Key.ofLive? key with
  | none => .error .badTableKey
  | some k => match table, t.table? table with
    | .object id, some entries => .ok (t.replace id (.table (entries.set k value)))
    | _, _ => .error .notATable

def setGlobal (name : String) (value : Live) : Except Fault Target :=
  t.set (root .globals) (.scalar (.string name.toUTF8.toList)) value

/-- Gives the binding at `index`, counted from 1, another value. -/
def rebind (bindings : List Binding) (index : UInt32) (value : Live) :
    Except Fault (List Binding) :=
  match nth? bindings index with
  | some (name, _) => .ok (bindings.set (index.toNat - 1) (name, value))
  | none => .error .outOfRange

def setUpvalue (function : Live) (index : UInt32) (value : Live) : Except Fault Target :=
  match function with
  | .scalar _ => .error .notAFunction
  | .object id => match t.heap[id]? with
    | none => .error .outOfRange
    | some (.function code upvalues) => do
      return t.replace id (.function code (← rebind upvalues index value))
    | some _ => .error .notAFunction

def tableId (v : Live) : Except Fault ObjectId :=
  match v with
  | .scalar _ => .error .metatableNotATable
  | .object id => match t.heap[id]? with
    | none => .error .outOfRange
    | some (.table _) => .ok id
    | some _ => .error .metatableNotATable

def share (kind : Kind) (metatable : Option ObjectId) : Target :=
  { t with shared := fun k => if k = kind then metatable else t.shared k }

/-- Tables and userdata have metatables of their own; any other value stands for its kind. -/
def setMetatable (value : Live) (metatable : Option Live) : Except Fault Target := do
  let metatable ← metatable.mapM t.tableId
  match value with
  | .scalar s => return t.share s.kind metatable
  | .object id => match t.heap[id]? with
    | none => throw .outOfRange
    | some (.table table) => return t.replace id (.table { table with metatable })
    | some (.userdata payload _) => return t.replace id (.userdata payload metatable)
    | some o => return t.share o.kind metatable

def pushFrame (function : Live) (locals : List Binding) : Except Fault Target :=
  match function with
  | .scalar _ => .error .frameNotAnObject
  | .object id => .ok { t with frames := ⟨id, locals⟩ :: t.frames }

def popFrame : Except Fault Target :=
  match t.frames with
  | [] => .error .emptyCallStack
  | _ :: frames => .ok { t with frames }

def setLocal (level : UInt16) (slot : UInt32) (value : Live) : Except Fault Target :=
  match t.frame? level with
  | none => .error .outOfRange
  | some frame => do
    let locals ← rebind frame.locals slot value
    return { t with frames := t.frames.set level.toNat { frame with locals } }

end RemoteInspect.Target
