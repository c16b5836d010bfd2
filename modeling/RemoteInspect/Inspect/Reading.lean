import RemoteInspect.Inspect.Evaluation
import RemoteInspect.Value

namespace RemoteInspect

structure Reading where
  kind : Kind
  value : Value
deriving DecidableEq, Repr

def Reading.document (r : Reading) : Document :=
  .record [("kind", .text r.kind.name), ("value", r.value.document)]

namespace Inspect

def resolve : Value → Inspect Live
  | .scalar s => do
    reserve
    pin (.scalar s)
  | .handle h => evaluate h

/-- What can be copied is given as a copy, all else as the handle `lazy`. -/
def publish (v : Live) (lazy : Except Fault Handle) : Inspect Value := do
  match v.copy? with
  | some s =>
    emit (.copied s)
    return .scalar s
  | none =>
    let h ← ofExcept lazy
    emit (.referred h)
    return .handle h

def query (value : Value) : Inspect Reading :=
  rejecting .query do
    match value with
    | .scalar s => return ⟨s.kind, value⟩
    | .handle h => holding (resolve value) fun v => do
      let kind ← kindOf v
      return ⟨kind, ← publish v (.ok h)⟩

def typeOf (value : Value) : Inspect Kind :=
  rejecting .typeOf (holding (resolve value) kindOf)

def typeName (value : Value) : Inspect String := do
  match ← (typeOf value).attempt with
  | .ok kind => return kind.name
  | .error _ => return Kind.noValue

def display (value : Value) : Inspect Scalar :=
  rejecting .display <| holding (resolve value) fun v => do
    match v.copy? with
    | some s => return s
    | none =>
      let text := "[" ++ (← kindOf v).name ++ ": " ++ Text.address (v.address?.getD 0) ++ "]"
      return .string text.toUTF8.toList

end Inspect

end RemoteInspect
