import RemoteInspect.Proofs.Target.Reachable

namespace RemoteInspect.Target

inductive Change
  | newTable
  | newThread
  | newNative (address : UInt64)
  | newClosure (source : String) (firstLine lastLine : Int64) (upvalues : List Binding)
  | newUserdata (payload : Option Live)
  | set (table key value : Live)
  | setGlobal (name : String) (value : Live)
  | setUpvalue (function : Live) (index : UInt32) (value : Live)
  | setMetatable (value : Live) (metatable : Option Live)
  | pushFrame (function : Live) (locals : List Binding)
  | popFrame
  | setLocal (level : UInt16) (slot : UInt32) (value : Live)
  | setStatus (status : Int32)
  | setCapacity (capacity : Nat)

inductive Access
  | pin (v : Live)
  | root (r : Root)
  | frameLocal (level : UInt16) (slot : UInt32)
  | frameFunction (level : UInt16)
  | rawGet (table key : Live)
  | rawNext (table last : Live)
  | upvalue (function : Live) (index : UInt32)
  | metatable (v : Live)
  | payload (v : Live)

variable (t : Target)

def change : Change → Except Fault Target
  | .newTable => .ok t.newTable.2
  | .newThread => .ok t.newThread.2
  | .newNative address => .ok (t.newNative address).2
  | .newClosure source firstLine lastLine upvalues =>
    .ok (t.newClosure source firstLine lastLine upvalues).2
  | .newUserdata payload => .ok (t.newUserdata payload).2
  | .set table key value => t.set table key value
  | .setGlobal name value => t.setGlobal name value
  | .setUpvalue function index value => t.setUpvalue function index value
  | .setMetatable value metatable => t.setMetatable value metatable
  | .pushFrame function locals => t.pushFrame function locals
  | .popFrame => t.popFrame
  | .setLocal level slot value => t.setLocal level slot value
  | .setStatus status => .ok { t with status }
  | .setCapacity capacity => .ok { t with capacity }

def accessed : Access → List Live
  | .pin v => [v]
  | .root r => [root r]
  | .frameLocal level slot => ((t.frameLocal? level slot).map Prod.snd).toList
  | .frameFunction level => (t.frameFunction? level).toList
  | .rawGet table key => [t.rawGet table key]
  | .rawNext table last => match t.rawNext table last with
    | .entry key value => [key, value]
    | .finished | .unknownKey => []
  | .upvalue function index => ((t.upvalue? function index).map Prod.snd).toList
  | .metatable v => (t.metatable? v).toList
  | .payload v => (t.payload? v).toList

variable {t} {u : Target}

theorem pinned_set {table key value : Live} (h : t.set table key value = .ok u) :
    u.pinned = t.pinned := by
  obtain ⟨id, contents, k, -, -, -, rfl⟩ := set_eq_ok_iff.mp h
  rfl

theorem pinned_setUpvalue {function value : Live} {index : UInt32}
    (h : t.setUpvalue function index value = .ok u) : u.pinned = t.pinned := by
  cases function with
  | scalar s => cases h
  | object id =>
    rw [setUpvalue] at h
    split at h
    · cases h
    · obtain ⟨upvalues, -, h⟩ := Except.bind_eq_ok_iff.mp h
      cases h
      rfl
    · cases h

theorem pinned_setMetatable {value : Live} {metatable : Option Live}
    (h : t.setMetatable value metatable = .ok u) : u.pinned = t.pinned := by
  obtain ⟨id?, -, h⟩ := Except.bind_eq_ok_iff.mp h
  cases value with
  | scalar s =>
    cases h
    rfl
  | object id =>
    simp only at h
    split at h <;> cases h <;> rfl

theorem pinned_setLocal {level : UInt16} {slot : UInt32} {value : Live}
    (h : t.setLocal level slot value = .ok u) : u.pinned = t.pinned := by
  rw [setLocal] at h
  split at h
  · cases h
  · obtain ⟨locals, -, h⟩ := Except.bind_eq_ok_iff.mp h
    cases h
    rfl

theorem pinned_change {c : Change} (h : t.change c = .ok u) : u.pinned = t.pinned := by
  cases c with
  | newTable | newThread | newNative | newClosure | newUserdata | setStatus | setCapacity =>
    cases h
    rfl
  | set table key value => exact pinned_set h
  | setGlobal name value =>
    have hset : t.set (root .globals) (.scalar (.string name.toUTF8.toList)) value = .ok u := h
    exact pinned_set hset
  | setUpvalue function index value => exact pinned_setUpvalue h
  | setMetatable value metatable => exact pinned_setMetatable h
  | pushFrame function locals =>
    cases function with
    | scalar s => cases h
    | object id =>
      cases h
      rfl
  | popFrame =>
    rw [change, popFrame] at h
    split at h <;> cases h
    rfl
  | setLocal level slot value => exact pinned_setLocal h

end RemoteInspect.Target
