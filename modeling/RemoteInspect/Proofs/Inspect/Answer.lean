import RemoteInspect.Inspect.Navigation
import RemoteInspect.Proofs.Inspect.Following

namespace RemoteInspect

/-- What a value stands for: a scalar for itself, and a handle for its tree. -/
inductive Meaning
  | scalar (s : Scalar)
  | tree (u : Tree Scalar)

def Value.Denotes : Value → Meaning → Prop
  | scalar s, .scalar s' => s = s'
  | handle h, .tree u => h.Denotes u
  | _, _ => False

theorem Value.Denotes.eq {value : Value} {m m' : Meaning} (hm : value.Denotes m)
    (hm' : value.Denotes m') : m = m' := by
  cases value with
  | scalar s => cases m <;> cases m' <;> cases hm <;> cases hm'; rfl
  | handle h =>
    cases m with
    | scalar s => cases hm
    | tree u =>
      cases m' with
      | scalar s => cases hm'
      | tree u' => exact congrArg Meaning.tree (Handle.Denotes.eq hm hm')

namespace Meaning

open Inspect (reservation)

variable {limits : Limits} {t : Target} {n : Nat}

def value (t : Target) : Meaning → Except Failure Live
  | scalar s => .ok (.scalar s)
  | tree u => u.value t

/-- The value under limits, when `n` values are pinned. -/
def limited (limits : Limits) (t : Target) (n : Nat) : Meaning → Except Stop Live
  | scalar s => do
    reservation limits t.capacity n
    return .scalar s
  | tree u => u.limited limits t 0 n

theorem owns_value (ht : t.Sound) {m : Meaning} {v : Live} (h : m.value t = .ok v) : t.Owns v := by
  cases m with
  | scalar s => cases h; exact Target.owns_scalar t s
  | tree u => exact Tree.owns_value ht h

theorem eq_of_limited_scalar {s : Scalar} {v : Live}
    (h : (scalar s).limited limits t n = .ok v) : v = .scalar s := by
  obtain ⟨_, _, hv⟩ := Except.bind_eq_ok_iff.mp h
  cases hv
  rfl

theorem owns_limited (ht : t.Sound) {m : Meaning} {v : Live} (h : m.limited limits t n = .ok v) :
    t.Owns v := by
  cases m with
  | scalar s => rw [eq_of_limited_scalar h]; exact Target.owns_scalar t s
  | tree u => exact Tree.owns_limited ht h

end Meaning

namespace Answer

open Inspect (Recorded record representative?)
open RemoteInspect.Tree (ofOption checkKind lookUp)

def published (v : Live) (lazy : Except Fault Handle) : Except Stop Value :=
  match v.copy? with
  | some s => .ok (.scalar s)
  | none => (lazy.map Value.handle).mapError Stop.fault

variable (t : Target)

def query (h : Handle) (v : Except Stop Live) : Except Stop Reading := do
  let v ← v
  match t.kind? v with
  | some kind => (published v (.ok h)).map (Reading.mk kind)
  | none => .error (.fault .outOfRange)

/-- The handle of a base, which must be of the kind expected. A scalar never is. -/
def baseHandle (base : Value) (expected : Expectation) (v : Live) : Except Failure Handle :=
  match base with
  | .handle h => (checkKind t expected v).map fun _ => h
  | .scalar s => .error (.wrongKind expected s.kind)

def index (base key : Value) (b k : Except Stop Live) (room : Except Stop Unit) :
    Except Stop Value :=
  if key = .scalar .nil then .error (.failure (.unsupported .nilKey))
  else do
    let table ← b
    let h ← (baseHandle t base .table table).mapError Stop.failure
    let k ← k
    if record key k = .constant .nil then .error (.failure (.unsupported .nilKey))
    else do
      room
      let v ← (lookUp t .get table k).mapError Stop.failure
      published v ((record key k).lookup h .get)

def entryHandle (h : Handle) : Value → Except Fault Handle
  | .scalar s => h.index s
  | .handle key => h.indexObject .get key

def next (base last : Value) (b k : Except Stop Live) (room : Except Stop Unit) :
    Except Stop (Option (Value × Value)) := do
  let table ← b
  let h ← (baseHandle t base .table table).mapError Stop.failure
  let k ← k
  room
  match t.rawNext table k with
  | .entry key v => do
    let key ← published key ((record last k).lookup h .next)
    let value ← published v (entryHandle h key)
    return some (key, value)
  | .finished => return none
  | .unknownKey => .error (.failure (.notFound .key))

def upvalue (base : Value) (index : UInt32) (b : Except Stop Live) (room : Except Stop Unit) :
    Except Stop (String × Value) := do
  let function ← b
  let h ← (baseHandle t base .function function).mapError Stop.failure
  room
  match t.upvalue? function index with
  | some (name, v) => (published v (.ok (h.upvalue index))).map (Prod.mk name)
  | none => .error (.failure (.notFound (.upvalue index)))

def metatableHandle (base : Value) (kind : Kind) : Except Failure Handle :=
  if kind.hasOwnMetatable then
    match base with
    | .handle h => .ok h.metatable
    | .scalar _ => .error (.wrongKind .ownMetatable kind)
  else if (representative? kind).isSome then .ok (.kindMetatable kind)
  else .error (.unsupported .noSharedMetatable)

def metatable (base : Value) (b : Except Stop Live) (room : Except Stop Unit) :
    Except Stop Handle := do
  let v ← b
  match t.kind? v with
  | some kind => do
    let h ← (metatableHandle base kind).mapError Stop.failure
    room
    let _ ← (ofOption .metatable (t.metatable? v)).mapError Stop.failure
    return h
  | none => .error (.fault .outOfRange)

def userPayload (base : Value) (b : Except Stop Live) (room : Except Stop Unit) :
    Except Stop Value := do
  let v ← b
  let h ← (baseHandle t base .userdata v).mapError Stop.failure
  room
  let payload ← (ofOption .payload (t.payload? v)).mapError Stop.failure
  published payload (.ok h.userPayload)

def frameLocal (frame : UInt16) (slot : UInt32) (room : Except Stop Unit) :
    Except Stop (String × Value) :=
  if t.hasFrame frame then do
    room
    match t.frameLocal? frame slot with
    | some (name, v) => (published v (.ok (.frameLocal frame slot))).map (Prod.mk name)
    | none => .error (.failure (.notFound (.frameLocal frame slot)))
  else .error (.failure (.notFound (.frame frame)))

def frameFunction (frame : UInt16) (room : Except Stop Unit) : Except Stop Handle := do
  room
  let _ ← (ofOption (.frame frame) (t.frameFunction? frame)).mapError Stop.failure
  return .frameFunction frame

end Answer

namespace Inspect

open RemoteInspect.Tree (ofOption checkKind lookUp)

variable {α : Type} {limits : Limits} {t : Target} {n : Nat}

theorem resolve_runs (ht : t.Sound) {value : Value} {m : Meaning} (hm : value.Denotes m) :
    Runs limits t n 1 (resolve value) (m.limited limits t n) := by
  cases value with
  | scalar s =>
    cases m with
    | scalar s' =>
      cases hm
      have hreserve : Runs limits t n 0 reserve _ := .reserve
      rw [Meaning.limited]
      cases hr : reservation limits t.capacity n with
      | error e => rw [hr] at hreserve; exact .stop hreserve
      | ok u => rw [hr] at hreserve; exact .seq hreserve (.pin _)
    | tree u => cases hm
  | handle h =>
    cases m with
    | scalar s => cases hm
    | tree u => exact evaluate_runs ht hm n

theorem publish_runs (v : Live) (lazy : Except Fault Handle) :
    Runs limits t n 0 (publish v lazy) (Answer.published v lazy) := by
  rw [publish, Answer.published]
  cases v.copy? with
  | some s => exact .seq (.emit _) (.pure _)
  | none =>
    cases lazy with
    | error f => exact .stop (.fault f)
    | ok h => exact .seq (.pure h) (.seq (.emit _) (.pure _))

theorem query_runs (ht : t.Sound) {h : Handle} {tree : Tree Scalar} (hh : h.Denotes tree) :
    Runs limits t n 0 (query (.handle h))
      (Answer.query t h (tree.limited limits t 0 n)) := by
  apply Runs.rejecting
  apply Runs.holding (evaluate_runs ht hh n)
  intro v hv
  obtain ⟨kind, hk⟩ := Tree.owns_limited ht hv
  simp only [hk]
  exact .seq (.kindOf hk) (Runs.map _ (publish_runs v _))

theorem fromBase_runs (ht : t.Sound) {base : Value} {b : Meaning} (hb : base.Denotes b)
    {expected : Expectation} {work : Live → Handle → Inspect α}
    {k : Live → Handle → Except Stop α} (hw : ∀ v h, Runs limits t (n + 1) 0 (work v h) (k v h)) :
    Runs limits t n 0 (fromBase base expected work) (do
      let v ← b.limited limits t n
      let h ← (Answer.baseHandle t base expected v).mapError Stop.failure
      k v h) := by
  apply Runs.holding (resolve_runs ht hb)
  intro v hv
  obtain ⟨kind, hk⟩ := Meaning.owns_limited ht hv
  apply Executes.seq (.kindOf hk)
  cases base with
  | handle h =>
    by_cases ha : expected.accepts kind
    · simp only [Answer.baseHandle, checkKind, hk, ha, ↓reduceIte, Except.map_ok,
        Except.mapError_ok, Except.ok_bind]
      exact hw v h
    · simp only [Answer.baseHandle, checkKind, hk, ha, ↓reduceIte, Except.map_error,
        Except.mapError_error, Except.error_bind, Bool.false_eq_true]
      exact .fail _
  | scalar s =>
    cases b with
    | tree u => cases hb
    | scalar s' =>
      cases hb
      cases Meaning.eq_of_limited_scalar hv
      cases hk
      exact .fail _

theorem index_runs (ht : t.Sound) {base key : Value} {b k : Meaning} (hb : base.Denotes b)
    (hk : key.Denotes k) :
    Runs limits t n 0 (index base key)
      (Answer.index t base key (b.limited limits t n) (k.limited limits t (n + 1))
        (reservation limits t.capacity (n + 2))) := by
  rw [index, Answer.index]
  by_cases hnil : key = .scalar .nil
  · simp only [hnil, ↓reduceIte]
    exact .rejecting _ (.stop (.fail _))
  simp only [hnil, ↓reduceIte]
  apply Runs.rejecting
  apply fromBase_runs ht hb
  intro table h
  apply Runs.holding (resolve_runs ht hk)
  intro key' _
  by_cases hrecorded : record key key' = .constant .nil
  · simp only [hrecorded, ↓reduceIte]
    exact .stop (.fail _)
  simp only [hrecorded, ↓reduceIte]
  apply Runs.bind .reserve
  intro _ _
  have hpin : Runs limits t (n + 2) 1 (do pin ((← target).rawGet table key'))
      (.ok (t.rawGet table key')) := .seq .target (.pin _)
  apply Runs.holding_ok hpin
  obtain ⟨kind, hkind⟩ := ht.owns_rawGet table key'
  apply Executes.seq (.kindOf hkind)
  by_cases habsent : t.rawGet table key' = .nil
  · cases hkind.symm.trans (Target.kind?_eq_nil_iff.mpr habsent)
    simp only [lookUp, habsent, ↓reduceIte]
    exact .stop (.fail _)
  · have hpresent : kind ≠ .nil := fun he => habsent (Target.kind?_eq_nil_iff.mp (he ▸ hkind))
    simp only [lookUp, habsent, hpresent, ↓reduceIte]
    exact publish_runs _ _

theorem resolveLast_eq (last : Option Value) :
    resolveLast last = resolve (last.getD (.scalar .nil)) := by
  cases last <;> rfl

theorem next_runs (ht : t.Sound) {base : Value} {last : Option Value} {b k : Meaning}
    (hb : base.Denotes b) (hk : (last.getD (.scalar .nil)).Denotes k) :
    Runs limits t n 0 (next base last)
      (Answer.next t base (last.getD (.scalar .nil)) (b.limited limits t n)
        (k.limited limits t (n + 1)) (reservation limits t.capacity (n + 2))) := by
  rw [next, Answer.next]
  rw [resolveLast_eq]
  apply Runs.rejecting
  apply fromBase_runs ht hb
  intro table h
  apply Runs.holding (resolve_runs ht hk)
  intro last' _
  apply Runs.bind .reserve
  intro _ _
  apply Executes.seq .target
  cases hn : t.rawNext table last' with
  | entry key v =>
    simp only [Target.rawNext_withPinned, hn]
    refine Runs.holding_ok (.pin key) (Runs.holding_ok (.pin v) ?_)
    refine .bind (publish_runs _ _) fun _ _ => .bind (publish_runs _ _) fun _ _ => ?_
    exact Executes.pure _
  | finished =>
    simp only [Target.rawNext_withPinned, hn]
    exact .pure _
  | unknownKey =>
    simp only [Target.rawNext_withPinned, hn]
    exact .fail _

theorem upvalue_runs (ht : t.Sound) {base : Value} {b : Meaning} (hb : base.Denotes b)
    (index : UInt32) :
    Runs limits t n 0 (upvalue base index)
      (Answer.upvalue t base index (b.limited limits t n)
        (reservation limits t.capacity (n + 1))) := by
  apply Runs.rejecting
  apply fromBase_runs ht hb
  intro function h
  apply Runs.bind .reserve
  intro _ _
  apply Executes.seq .target
  cases hu : t.upvalue? function index with
  | none =>
    simp only [Target.upvalue?_withPinned, hu]
    exact .fail _
  | some binding =>
    simp only [Target.upvalue?_withPinned, hu]
    exact Runs.holding_ok (.pin _) (Runs.map _ (publish_runs _ _))

theorem metatableHandle_runs (base : Value) (kind : Kind) :
    Runs limits t n 0 (metatableHandle base kind)
      ((Answer.metatableHandle base kind).mapError Stop.failure) := by
  unfold metatableHandle Answer.metatableHandle
  by_cases hown : kind.hasOwnMetatable
  · simp only [hown, ↓reduceIte]
    cases base with
    | handle h => exact .pure _
    | scalar s => exact .fail _
  · by_cases hshared : (representative? kind).isSome
    · simp only [hown, hshared, ↓reduceIte, Bool.false_eq_true]
      exact .pure _
    · simp only [hown, hshared, ↓reduceIte, Bool.false_eq_true]
      exact .fail _

theorem metatable_runs (ht : t.Sound) {base : Value} {b : Meaning} (hb : base.Denotes b) :
    Runs limits t n 0 (metatable base)
      (Answer.metatable t base (b.limited limits t n)
        (reservation limits t.capacity (n + 1))) := by
  apply Runs.rejecting
  apply Runs.holding (resolve_runs ht hb)
  intro v hv
  obtain ⟨kind, hk⟩ := Meaning.owns_limited ht hv
  simp only [hk]
  apply Executes.seq (.kindOf hk)
  apply Runs.bind (metatableHandle_runs base kind)
  intro h _
  apply Runs.bind .reserve
  intro _ _
  apply Executes.seq .target
  cases hm : t.metatable? v with
  | none =>
    simp only [Target.metatable?_withPinned, hm]
    exact .stop (.fail _)
  | some m =>
    simp only [Target.metatable?_withPinned, hm]
    have hrefer : Runs limits t (n + 1) 0 (holding (pin m) fun _ => emit (.referred h)) (.ok ()) :=
      .holding_ok (.pin m) (.emit _)
    exact .seq hrefer (.pure h)

theorem userPayload_runs (ht : t.Sound) {base : Value} {b : Meaning} (hb : base.Denotes b) :
    Runs limits t n 0 (userPayload base)
      (Answer.userPayload t base (b.limited limits t n)
        (reservation limits t.capacity (n + 1))) := by
  apply Runs.rejecting
  apply fromBase_runs ht hb
  intro v h
  apply Runs.bind .reserve
  intro _ _
  apply Executes.seq .target
  cases hp : t.payload? v with
  | none =>
    simp only [Target.payload?_withPinned, hp]
    exact .fail _
  | some payload =>
    simp only [Target.payload?_withPinned, hp]
    exact Runs.holding_ok (.pin payload) (publish_runs _ _)

theorem frameLocal_runs (frame : UInt16) (slot : UInt32) :
    Runs limits t n 0 (frameLocal frame slot)
      (Answer.frameLocal t frame slot (reservation limits t.capacity n)) := by
  apply Runs.rejecting
  apply Executes.seq .target
  rw [Answer.frameLocal]
  by_cases hframe : t.hasFrame frame
  · have hframe' : (t.withPinned n).hasFrame frame := hframe
    simp only [Target.hasFrame_withPinned, hframe, ↓reduceIte]
    apply Runs.bind .reserve
    intro _ _
    apply Executes.seq .target
    cases hl : t.frameLocal? frame slot with
    | none =>
      simp only [Target.frameLocal?_withPinned, hl]
      exact .fail _
    | some binding =>
      simp only [Target.frameLocal?_withPinned, hl]
      exact Runs.holding_ok (.pin _) (Runs.map _ (publish_runs _ _))
  · have hframe' : ¬ (t.withPinned n).hasFrame frame := hframe
    simp only [Target.hasFrame_withPinned, hframe, ↓reduceIte, Bool.false_eq_true]
    exact .stop (.fail _)

theorem frameFunction_runs (frame : UInt16) :
    Runs limits t n 0 (frameFunction frame)
      (Answer.frameFunction t frame (reservation limits t.capacity n)) := by
  apply Runs.rejecting
  apply Runs.bind .reserve
  intro _ _
  apply Executes.seq .target
  cases hf : t.frameFunction? frame with
  | none =>
    simp only [Target.frameFunction?_withPinned, hf]
    exact .stop (.fail _)
  | some v =>
    simp only [Target.frameFunction?_withPinned, hf]
    have hrefer : Runs limits t n 0
        (holding (pin v) fun _ => emit (.referred (.frameFunction frame))) (.ok ()) :=
      .holding_ok (.pin v) (.emit _)
    exact .seq hrefer (.pure _)

end Inspect

end RemoteInspect
