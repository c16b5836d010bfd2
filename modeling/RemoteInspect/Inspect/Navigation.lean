import RemoteInspect.Inspect.Reading

namespace RemoteInspect.Inspect

/-- A key as the path records it. -/
inductive Recorded
  | constant (s : Scalar)
  | object (h : Handle)
deriving DecidableEq, Repr

def Recorded.lookup (key : Recorded) (base : Handle) : Lookup → Except Fault Handle
  | .get => match key with
    | constant s => base.index s
    | object h => base.indexObject .get h
  | .next => match key with
    | constant s => base.nextKey s
    | object h => base.indexObject .next h

def record (key : Value) (v : Live) : Recorded :=
  match key, v.copy? with
  | .scalar s, _ => .constant s
  | .handle _, some s => .constant s
  | .handle h, none => .object h

def fromBase {α : Type} (base : Value) (expected : Expectation)
    (work : Live → Handle → Inspect α) : Inspect α :=
  holding (resolve base) fun v => do
    let kind ← kindOf v
    match base with
    | .handle h => if expected.accepts kind then work v h else fail (.wrongKind expected kind)
    | .scalar _ => fail (.wrongKind expected kind)

def index (base key : Value) : Inspect Value :=
  rejecting .index do
    if key = .scalar .nil then fail (.unsupported .nilKey)
    fromBase base .table fun table h =>
      holding (resolve key) fun k => do
        let recorded := record key k
        if recorded = .constant .nil then fail (.unsupported .nilKey)
        reserve
        holding (do pin ((← target).rawGet table k)) fun v => do
          if (← kindOf v) = .nil then fail (.notFound .key)
          publish v (recorded.lookup h .get)

def resolveLast : Option Value → Inspect Live
  | some last => resolve last
  | none => resolve (.scalar .nil)

def next (base : Value) (last : Option Value) : Inspect (Option (Value × Value)) :=
  rejecting .next <| fromBase base .table fun table h =>
    holding (resolveLast last) fun k => do
      let recorded := record (last.getD (.scalar .nil)) k
      reserve
      match (← target).rawNext table k with
      | .entry k v => holding (pin k) fun k => holding (pin v) fun v => do
        let key ← publish k (recorded.lookup h .next)
        let value ← publish v <| match key with
          | .scalar s => h.index s
          | .handle key => h.indexObject .get key
        return some (key, value)
      | .finished => return none
      | .unknownKey => fail (.notFound .key)

def upvalue (base : Value) (index : UInt32) : Inspect (String × Value) :=
  rejecting .upvalue <| fromBase base .function fun function h => do
    reserve
    match (← target).upvalue? function index with
    | some (name, v) => holding (pin v) fun v => do
      return (name, ← publish v (.ok (h.upvalue index)))
    | none => fail (.notFound (.upvalue index))

def metatableHandle (base : Value) (kind : Kind) : Inspect Handle :=
  if kind.hasOwnMetatable then
    match base with
    | .handle h => pure h.metatable
    | .scalar _ => fail (.wrongKind .ownMetatable kind)
  else if (representative? kind).isSome then pure (.kindMetatable kind)
  else fail (.unsupported .noSharedMetatable)

def metatable (base : Value) : Inspect Handle :=
  rejecting .metatable <| holding (resolve base) fun v => do
    let h ← metatableHandle base (← kindOf v)
    reserve
    match (← target).metatable? v with
    | some m => holding (pin m) fun _ => emit (.referred h)
    | none => fail (.notFound .metatable)
    return h

def userPayload (base : Value) : Inspect Value :=
  rejecting .userPayload <| fromBase base .userdata fun v h => do
    reserve
    match (← target).payload? v with
    | some payload => holding (pin payload) fun payload => publish payload (.ok h.userPayload)
    | none => fail (.notFound .payload)

def frameLocal (frame : UInt16) (slot : UInt32) : Inspect (String × Value) :=
  rejecting .frameLocal do
    unless (← target).hasFrame frame do fail (.notFound (.frame frame))
    reserve
    match (← target).frameLocal? frame slot with
    | some (name, v) => holding (pin v) fun v => do
      return (name, ← publish v (.ok (.frameLocal frame slot)))
    | none => fail (.notFound (.frameLocal frame slot))

def frameFunction (frame : UInt16) : Inspect Handle :=
  rejecting .frameFunction do
    reserve
    match (← target).frameFunction? frame with
    | some v => holding (pin v) fun _ => emit (.referred (.frameFunction frame))
    | none => fail (.notFound (.frame frame))
    return .frameFunction frame

end RemoteInspect.Inspect
