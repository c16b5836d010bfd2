import RemoteInspect.Inspect.Failure
import RemoteInspect.Target.Basic
import RemoteInspect.Tree.Basic

namespace RemoteInspect.Tree

def ofOption (what : Missing) : Option Live → Except Failure Live
  | some v => .ok v
  | none => .error (.notFound what)

def checkKind (t : Target) (expected : Expectation) (v : Live) : Except Failure Live :=
  match t.kind? v with
  | some kind => if expected.accepts kind then .ok v else .error (.wrongKind expected kind)
  | none => .ok v

def lookUp (t : Target) : Lookup → Live → Live → Except Failure Live
  | .get, table, key =>
    let v := t.rawGet table key
    if v = .nil then .error (.notFound .key) else .ok v
  | .next, table, key => match t.rawNext table key with
    | .entry k _ => .ok k
    | .finished => .error (.notFound .nextKey)
    | .unknownKey => .error (.notFound .key)

def value (t : Target) : Tree Scalar → Except Failure Live
  | frameLocal frame slot =>
    if t.hasFrame frame then
      ofOption (.frameLocal frame slot) ((t.frameLocal? frame slot).map Prod.snd)
    else .error (.notFound (.frame frame))
  | frameFunction frame => ofOption (.frame frame) (t.frameFunction? frame)
  | root r => .ok (Target.root r)
  | kindMetatable kind =>
    if kind = .table ∨ kind = .function ∨ kind = .userdata then
      .error (.unsupported .noSharedMetatable)
    else ofOption .metatable ((t.shared kind).map .object)
  | index lookup base key => do
    let table ← checkKind t .table (← base.value t)
    lookUp t lookup table (.scalar key)
  | indexObject lookup base key => do
    let table ← checkKind t .table (← base.value t)
    lookUp t lookup table (← key.value t)
  | upvalue base n => do
    let function ← checkKind t .function (← base.value t)
    ofOption (.upvalue n) ((t.upvalue? function n).map Prod.snd)
  | metatable base => do
    let v ← checkKind t .ownMetatable (← base.value t)
    ofOption .metatable (t.metatable? v)
  | userPayload base => do
    let v ← checkKind t .userdata (← base.value t)
    ofOption .payload (t.payload? v)

end RemoteInspect.Tree
