import RemoteInspect.Proofs.Target.Changes

namespace RemoteInspect.Target

/-- An object is told apart by a word of 32 bits. -/
def heapLimit : Nat := UInt32.size

/-- A computation that writes to a target, and leaves it as written when it faults. -/
abbrev InPlace := ExceptT Fault (StateM Target)

namespace InPlace

variable {α β : Type}

protected def run (m : InPlace α) (t : Target) : Except Fault α × Target :=
  StateT.run (ExceptT.run m) t

def require (f : Fault) : Option α → InPlace α
  | some a => pure a
  | none => throw f

@[simp] theorem run_pure (a : α) (t : Target) : InPlace.run (pure a) t = (.ok a, t) := rfl

@[simp] theorem run_throw (f : Fault) (t : Target) :
    InPlace.run (throw f : InPlace α) t = (.error f, t) := rfl

@[simp] theorem run_get (t : Target) : InPlace.run get t = (.ok t, t) := rfl

@[simp] theorem run_modify (f : Target → Target) (t : Target) :
    InPlace.run (modify f) t = (.ok (), f t) := rfl

@[simp] theorem run_bind (m : InPlace α) (f : α → InPlace β) (t : Target) :
    InPlace.run (m >>= f) t = match InPlace.run m t with
      | (.ok a, t) => InPlace.run (f a) t
      | (.error e, t) => (.error e, t) := by
  change (ExceptT.bindCont f (InPlace.run m t).1 : StateM Target (Except Fault β)).run
    (InPlace.run m t).2 = _
  obtain ⟨_ | _, _⟩ := InPlace.run m t <;> rfl

@[simp] theorem run_map (f : α → β) (m : InPlace α) (t : Target) :
    InPlace.run (f <$> m) t = ((InPlace.run m t).1.map f, (InPlace.run m t).2) := by
  rw [← bind_pure_comp, run_bind]
  obtain ⟨_ | _, _⟩ := InPlace.run m t <;> rfl

@[simp] theorem run_require_some (f : Fault) (a : α) (t : Target) :
    InPlace.run (require f (some a)) t = (.ok a, t) := rfl

@[simp] theorem run_require_none (f : Fault) (t : Target) :
    InPlace.run (require f (none : Option α)) t = (.error f, t) := rfl

def allocate (o : Object) : InPlace (Option Live) := do
  let id := (← get).heap.size
  if heapLimit ≤ id then throw .heapExhausted
  modify fun t => { t with heap := t.heap.push o }
  return some (.object id)

def objectAt (id : ObjectId) : InPlace Object := do
  require .outOfRange (← get).heap[id]?

def write (id : ObjectId) (o : Object) : InPlace Unit :=
  modify (·.replace id o)

def setEntry (table key value : Live) : InPlace Unit := do
  let k ← require .badTableKey (Key.ofLive? key)
  match table, (← get).table? table with
  | .object id, some contents => write id (.table (contents.set k value))
  | _, _ => throw .notATable

def setUpvalue (function : Live) (index : UInt32) (value : Live) : InPlace Unit :=
  match function with
  | .scalar _ => throw .notAFunction
  | .object id => do
    match ← objectAt id with
    | .function code upvalues =>
      let (name, _) ← require .outOfRange (nth? upvalues index)
      write id (.function code (upvalues.set (index.toNat - 1) (name, value)))
    | _ => throw .notAFunction

def tableId (v : Live) : InPlace ObjectId :=
  match v with
  | .scalar _ => throw .metatableNotATable
  | .object id => do
    match ← objectAt id with
    | .table _ => return id
    | _ => throw .metatableNotATable

def share (kind : Kind) (metatable : Option ObjectId) : InPlace Unit :=
  modify (·.share kind metatable)

def setMetatable (value : Live) (metatable : Option Live) : InPlace Unit := do
  let metatable ← metatable.mapM tableId
  match value with
  | .scalar s => share s.kind metatable
  | .object id =>
    match ← objectAt id with
    | .table contents => write id (.table { contents with metatable })
    | .userdata payload _ => write id (.userdata payload metatable)
    | o => share o.kind metatable

def pushFrame (function : Live) (locals : List Binding) : InPlace Unit :=
  match function with
  | .scalar _ => throw .frameNotAnObject
  | .object id => modify fun t => { t with frames := ⟨id, locals⟩ :: t.frames }

def popFrame : InPlace Unit := do
  -- The frame is taken off before it turns out whether there was one.
  let top := (← get).frames.head?
  modify fun t => { t with frames := t.frames.tail }
  let _ ← require .emptyCallStack top

def setLocal (level : UInt16) (slot : UInt32) (value : Live) : InPlace Unit := do
  let frame ← require .outOfRange ((← get).frame? level)
  let (name, _) ← require .outOfRange (nth? frame.locals slot)
  let locals := frame.locals.set (slot.toNat - 1) (name, value)
  modify fun t => { t with frames := t.frames.set level.toNat { frame with locals } }

end InPlace

def perform : Change → InPlace (Option Live)
  | .newTable => InPlace.allocate (.table .empty)
  | .newThread => InPlace.allocate .thread
  | .newNative address => InPlace.allocate (.function (.native address) [])
  | .newClosure source firstLine lastLine upvalues =>
    InPlace.allocate (.function (.script source firstLine lastLine) upvalues)
  | .newUserdata payload => InPlace.allocate (.userdata payload none)
  | .set table key value => do InPlace.setEntry table key value; return none
  | .setGlobal name value => do
    InPlace.setEntry (root .globals) (.scalar (.string name.toUTF8.toList)) value
    return none
  | .setUpvalue function index value => do InPlace.setUpvalue function index value; return none
  | .setMetatable value metatable => do InPlace.setMetatable value metatable; return none
  | .pushFrame function locals => do InPlace.pushFrame function locals; return none
  | .popFrame => do InPlace.popFrame; return none
  | .setLocal level slot value => do InPlace.setLocal level slot value; return none
  | .setStatus status => do modify fun t => { t with status }; return none
  | .setCapacity capacity => do modify fun t => { t with capacity }; return none

def made (t : Target) : Change → Option Live
  | .newTable => some t.newTable.1
  | .newThread => some t.newThread.1
  | .newNative address => some (t.newNative address).1
  | .newClosure source firstLine lastLine upvalues =>
    some (t.newClosure source firstLine lastLine upvalues).1
  | .newUserdata payload => some (t.newUserdata payload).1
  | .set .. | .setGlobal .. | .setUpvalue .. | .setMetatable .. | .pushFrame .. | .popFrame
  | .setLocal .. | .setStatus _ | .setCapacity _ => none

/-- A change as the bounded heap allows it. -/
def attempt (t : Target) (c : Change) : Except Fault Target :=
  if (t.made c).isSome ∧ heapLimit ≤ t.heap.size then .error .heapExhausted else t.change c

/-- All of a change that succeeds, and nothing of one that faults. -/
def allOrNothing {α : Type} (t : Target) (a : α) : Except Fault Target → Except Fault α × Target
  | .ok u => (.ok a, u)
  | .error f => (.error f, t)

variable (t : Target)

theorem run_setEntry (table key value : Live) :
    (InPlace.setEntry table key value).run t = t.allOrNothing () (t.set table key value) := by
  rw [InPlace.setEntry, set]
  cases Key.ofLive? key with
  | none => rfl
  | some k =>
    cases table with
    | scalar s => rfl
    | object id => cases hc : t.table? (.object id) <;> simp [hc, InPlace.write, allOrNothing]

theorem run_setUpvalue (function : Live) (index : UInt32) (value : Live) :
    (InPlace.setUpvalue function index value).run t =
      t.allOrNothing () (t.setUpvalue function index value) := by
  cases function with
  | scalar s => rfl
  | object id =>
    rw [InPlace.setUpvalue, setUpvalue]
    cases ho : t.heap[id]? with
    | none => simp [InPlace.objectAt, ho, allOrNothing]
    | some o =>
      cases o with
      | function code upvalues =>
        cases hn : nth? upvalues index <;>
          simp [InPlace.objectAt, InPlace.write, ho, rebind, hn, allOrNothing]
      | table | userdata | thread => simp [InPlace.objectAt, ho, allOrNothing]

theorem run_tableId (v : Live) : (InPlace.tableId v).run t = (t.tableId v, t) := by
  cases v with
  | scalar s => rfl
  | object id =>
    rw [InPlace.tableId, tableId]
    cases ho : t.heap[id]? with
    | none => simp [InPlace.objectAt, ho]
    | some o => cases o <;> simp [InPlace.objectAt, ho]

theorem run_tableId? (metatable : Option Live) :
    (metatable.mapM InPlace.tableId).run t = (metatable.mapM t.tableId, t) := by
  cases metatable with
  | none => rfl
  | some v =>
    rw [Option.mapM_some, Option.mapM_some]
    cases hv : t.tableId v <;> simp [run_tableId, hv]

theorem run_setMetatable (value : Live) (metatable : Option Live) :
    (InPlace.setMetatable value metatable).run t =
      t.allOrNothing () (t.setMetatable value metatable) := by
  rw [InPlace.setMetatable, setMetatable, InPlace.run_bind, run_tableId?]
  cases metatable.mapM t.tableId with
  | error f => rfl
  | ok m =>
    cases value with
    | scalar s => rfl
    | object id =>
      cases ho : t.heap[id]? with
      | none => simp [InPlace.objectAt, ho, allOrNothing]
      | some o =>
        cases o <;> simp [InPlace.objectAt, InPlace.write, InPlace.share, ho, allOrNothing]

theorem run_pushFrame (function : Live) (locals : List Binding) :
    (InPlace.pushFrame function locals).run t =
      t.allOrNothing () (t.pushFrame function locals) := by
  cases function <;> rfl

theorem run_popFrame : InPlace.popFrame.run t = t.allOrNothing () t.popFrame := by
  rw [InPlace.popFrame, popFrame]
  cases hf : t.frames with
  | nil =>
    have hnone : { t with frames := [] } = t := by rw [← hf]
    simp [hf, hnone, allOrNothing]
  | cons frame frames => simp [hf, allOrNothing]

theorem run_setLocal (level : UInt16) (slot : UInt32) (value : Live) :
    (InPlace.setLocal level slot value).run t =
      t.allOrNothing () (t.setLocal level slot value) := by
  rw [InPlace.setLocal, setLocal]
  cases hf : t.frame? level with
  | none => simp [hf, allOrNothing]
  | some frame => cases hn : nth? frame.locals slot <;> simp [hf, rebind, hn, allOrNothing]

theorem run_allocate (o : Object) :
    (InPlace.allocate o).run t = t.allOrNothing (some (t.allocate o).1)
      (if heapLimit ≤ t.heap.size then .error .heapExhausted else .ok (t.allocate o).2) := by
  by_cases h : heapLimit ≤ t.heap.size <;> simp [InPlace.allocate, h, allOrNothing, allocate]

/-- In place a change leaves what it gives, and leaves the target as it was if it faults. -/
theorem run_perform (c : Change) :
    (perform c).run t = t.allOrNothing (t.made c) (t.attempt c) := by
  have hthen : ∀ (m : InPlace Unit) (r : Except Fault Target),
      m.run t = t.allOrNothing () r →
      (do m; return none : InPlace (Option Live)).run t = t.allOrNothing none r := by
    intro m r hm
    cases r <;> simp [hm, allOrNothing]
  cases c with
  | newTable | newThread | newNative | newClosure | newUserdata =>
    simp only [attempt, made, Option.isSome_some, true_and]
    exact t.run_allocate _
  | set table key value => exact hthen _ _ (t.run_setEntry table key value)
  | setGlobal name value => exact hthen _ _ (t.run_setEntry _ _ value)
  | setUpvalue function index value => exact hthen _ _ (t.run_setUpvalue function index value)
  | setMetatable value metatable => exact hthen _ _ (t.run_setMetatable value metatable)
  | pushFrame function locals => exact hthen _ _ (t.run_pushFrame function locals)
  | popFrame => exact hthen _ _ t.run_popFrame
  | setLocal level slot value => exact hthen _ _ (t.run_setLocal level slot value)
  | setStatus | setCapacity => rfl

end RemoteInspect.Target
