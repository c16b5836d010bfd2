import RemoteInspect.Path.Step
import RemoteInspect.Target.Table

namespace RemoteInspect

/-- A value under a name: a local or a capture. -/
abbrev Binding := String × Live

inductive Code
  | native (address : UInt64)
  | script (source : String) (firstLine lastLine : Int64)
deriving DecidableEq, Repr

inductive Object
  | table (t : Table)
  | function (code : Code) (upvalues : List Binding)
  | userdata (payload : Option Live) (metatable : Option ObjectId)
  | thread
deriving DecidableEq, Repr

def Object.kind : Object → Kind
  | table _ => .table
  | function .. => .function
  | userdata .. => .userdata
  | thread => .thread

structure Frame where
  function : ObjectId
  locals : List Binding
deriving DecidableEq, Repr

/-- A running interpreter. The innermost frame comes first. The working area holds the values
that the outside has pinned. -/
structure Target where
  heap : Array Object
  shared : Kind → Option ObjectId
  frames : List Frame
  status : Int32
  pinned : Nat
  capacity : Nat

def Root.object : Root → ObjectId
  | registry => 0
  | globals => 1
  | mainThread => 2

namespace Target

def defaultCapacity : Nat := 1000000

/-- The registry holds the main thread at 1 and the globals at 2. -/
def initialRegistry : Table :=
  ⟨[(.integer 1, .object Root.mainThread.object), (.integer 2, .object Root.globals.object)],
    none⟩

def initial : Target where
  heap := #[.table initialRegistry, .table .empty, .thread]
  shared := fun _ => none
  frames := []
  status := 0
  pinned := 0
  capacity := defaultCapacity

variable (t : Target)

def root (r : Root) : Live := .object r.object

def object? : Live → Option Object
  | .object id => t.heap[id]?
  | .scalar _ => none

def kind? : Live → Option Kind
  | .scalar s => some s.kind
  | .object id => t.heap[id]?.map Object.kind

def table? (v : Live) : Option Table :=
  match t.object? v with
  | some (.table table) => some table
  | _ => none

def function? (v : Live) : Option (Code × List Binding) :=
  match t.object? v with
  | some (.function code upvalues) => some (code, upvalues)
  | _ => none

/-- Absent keys, and all keys of what is no table, have the value nil. -/
def rawGet (table key : Live) : Live :=
  match t.table? table, Key.ofLive? key with
  | some table, some k => table.get k
  | _, _ => .nil

def rawNext (table last : Live) : Successor :=
  match t.table? table with
  | some table => table.next last
  | none => .unknownKey

def nth? (bindings : List Binding) (index : UInt32) : Option Binding :=
  if index = 0 then none else bindings[index.toNat - 1]?

def upvalue? (function : Live) (index : UInt32) : Option Binding :=
  (t.function? function).bind fun f => nth? f.2 index

def metatable? (v : Live) : Option Live :=
  (match t.object? v with
    | some (.table table) => table.metatable
    | some (.userdata _ metatable) => metatable
    | _ => (t.kind? v).bind t.shared).map Live.object

def payload? (v : Live) : Option Live :=
  match t.object? v with
  | some (.userdata payload _) => payload
  | _ => none

def code? (v : Live) : Option Code :=
  (t.function? v).map Prod.fst

def frame? (level : UInt16) : Option Frame :=
  t.frames[level.toNat]?

def hasFrame (level : UInt16) : Bool :=
  (t.frame? level).isSome

def frameLocal? (level : UInt16) (slot : UInt32) : Option Binding :=
  (t.frame? level).bind fun f => nth? f.locals slot

def frameFunction? (level : UInt16) : Option Live :=
  (t.frame? level).map fun f => .object f.function

end Target

end RemoteInspect
