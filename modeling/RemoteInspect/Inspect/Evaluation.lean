import RemoteInspect.Inspect.Basic

/-!
Following a path. The steps of a node are those from its first one to the end of the path, so a
base is found behind the step and a key behind the base. The result of a node stays pinned; all
else is released when the node above has used it.
-/
namespace RemoteInspect.Inspect

def failAt {α : Type} (s : Step) (depth : Nat) (f : Failure) : Inspect α := do
  emit (.failed s depth f)
  fail f

/-- A value whose kind has only a shared metatable. -/
def representative? : Kind → Option Live
  | .nil => some .nil
  | .boolean => some (.scalar (.boolean false))
  | .number => some (.scalar (.integer 0))
  | .string => some (.scalar (.string []))
  | .pointer => some (.scalar (.pointer 0))
  | .thread => some (Target.root .mainThread)
  | .table | .function | .userdata => none

def found (s : Step) (depth : Nat) (v? : Option Live) (what : Missing) : Inspect Live :=
  match v? with
  | some v => pin v
  | none => failAt s depth (.notFound what)

def lookupAt (s : Step) (depth : Nat) (lookup : Lookup) (table key : Live) : Inspect Live := do
  let t ← target
  match lookup with
  | .get =>
    let v ← pin (t.rawGet table key)
    if (← kindOf v) = .nil then
      release
      failAt s depth (.notFound .key)
    return v
  | .next =>
    match t.rawNext table key with
    | .entry k v =>
      let k ← pin k
      let _ ← pin v
      release
      return k
    | .finished => failAt s depth (.notFound .nextKey)
    | .unknownKey => failAt s depth (.notFound .key)

def constantAt (s : Step) (depth : Nat) (pool : Pool) (reference : UInt32) : Inspect Live :=
  if reference = 0 then pin .nil
  else match pool.get? reference with
    | some constant => pin (.scalar constant)
    | none => failAt s depth (.notFound (.poolEntry reference))

def onBase {α : Type} (s : Step) (depth : Nat) (expected : Expectation) (base : Inspect Live)
    (work : Live → Inspect α) : Inspect α :=
  holding base fun v => do
    let kind ← kindOf v
    if expected.accepts kind then work v else failAt s depth (.wrongKind expected kind)

/-- One step. `descend` gives the value of the subpath at the front of some steps. -/
def follow (descend : List Step → Inspect Live) (pool : Pool) (depth : Nat) (s : Step)
    (rest : List Step) : Inspect Live :=
  match s with
  | .frameLocal frame slot => do
    let t ← target
    if t.hasFrame frame then
      found s depth ((t.frameLocal? frame slot).map Prod.snd) (.frameLocal frame slot)
    else failAt s depth (.notFound (.frame frame))
  | .frameFunction frame => do
    found s depth ((← target).frameFunction? frame) (.frame frame)
  | .root r => pin (Target.root r)
  | .kindMetatable kind =>
    match representative? kind with
    | some v => holding (pin v) fun v => do found s depth ((← target).metatable? v) .metatable
    | none => failAt s depth (.unsupported .noSharedMetatable)
  | .index lookup key =>
    onBase s depth .table (descend rest) fun table =>
      holding (constantAt s depth pool key) fun key => lookupAt s depth lookup table key
  | .indexObject lookup baseSize =>
    onBase s depth .table (descend rest) fun table =>
      holding (descend (rest.drop baseSize.toNat)) fun key => lookupAt s depth lookup table key
  | .upvalue index =>
    onBase s depth .function (descend rest) fun function => do
      found s depth (((← target).upvalue? function index).map Prod.snd) (.upvalue index)
  | .metatable =>
    onBase s depth .ownMetatable (descend rest) fun v => do
      found s depth ((← target).metatable? v) .metatable
  | .userPayload =>
    onBase s depth .userdata (descend rest) fun v => do
      found s depth ((← target).payload? v) .payload

/-- The node at the front of some steps, with `room` more levels to go. -/
def node (pool : Pool) : (room depth : Nat) → List Step → Inspect Live
  | _, _, [] => fault .outOfRange
  | 0, depth, s :: _ => do
    failAt s depth (.exhausted (.recursionLimit (← limits).recursion))
  | room + 1, depth, s :: rest => do
    unless ← roomy do failAt s depth (.exhausted .workingArea)
    emit (.entered s depth)
    let v ← follow (node pool room (depth + 1)) pool depth s rest
    emit (.resolved s depth (← kindOf v))
    return v

def evaluate (h : Handle) : Inspect Live := do
  node h.pool (← limits).recursion 0 h.path.steps

end RemoteInspect.Inspect
