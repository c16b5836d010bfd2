import RemoteInspect.Inspect.Callable
import RemoteInspect.Proofs.Inspect.Keeping
import RemoteInspect.Proofs.Inspect.Rederivation

namespace RemoteInspect

/-- The constructors that operations use give handles with `P`, if those that they are given have
it. -/
structure Handle.Inherited (P : Handle → Prop) : Prop where
  frameLocal (frame : UInt16) (slot : UInt32) : P (.frameLocal frame slot)
  frameFunction (frame : UInt16) : P (.frameFunction frame)
  kindMetatable (kind : Kind) : P (.kindMetatable kind)
  index {b h : Handle} {key : Scalar} (base : P b) (made : b.index key = .ok h) : P h
  nextKey {b h : Handle} {last : Scalar} (base : P b) (made : b.nextKey last = .ok h) : P h
  indexObject {b k h : Handle} {lookup : Lookup} (base : P b) (key : P k)
    (made : b.indexObject lookup k = .ok h) : P h
  upvalue {b : Handle} (base : P b) (n : UInt32) : P (b.upvalue n)
  metatable {b : Handle} (base : P b) : P b.metatable
  userPayload {b : Handle} (base : P b) : P b.userPayload

theorem Handle.Built.inherited : Handle.Inherited Handle.Built where
  frameLocal := .frameLocal
  frameFunction := .frameFunction
  kindMetatable := .kindMetatable
  index := .index
  nextKey := .nextKey
  indexObject := .indexObject
  upvalue := .upvalue
  metatable := .metatable
  userPayload := .userPayload

def Value.All (P : Handle → Prop) : Value → Prop
  | scalar _ => True
  | handle h => P h

theorem Value.Built.all {value : Value} (h : value.Built) : value.All Handle.Built := by
  cases value <;> exact h

namespace Inspect

variable {α : Type} {limits : Limits} {t : Target} {allowed : Fault → Prop} {own : Live → Prop}
  {P : Handle → Prop} {held : Nat} {Q : α → Prop}

def Published (v : Live) (lazy : Except Fault Handle) : Value → Prop
  | .scalar s => v = .scalar s
  | .handle h => lazy = .ok h

theorem Published.all {v : Live} {lazy : Except Fault Handle} {value : Value}
    (h : Published v lazy value) (hlazy : ∀ h, lazy = .ok h → P h) : value.All P := by
  cases value with
  | scalar s => trivial
  | handle h' => exact hlazy h' h

def Request.All (P : Handle → Prop) : Request → Prop
  | query value => value.All P
  | index base key => base.All P ∧ key.All P
  | next base last => base.All P ∧ (last.getD (.scalar .nil)).All P
  | upvalue base _ | metatable base | userPayload base => base.All P
  | frameLocal .. | frameFunction _ => True

theorem Request.Built.all {request : Request} (h : request.Built) : request.All Handle.Built := by
  cases request with
  | query value => exact Value.Built.all h
  | index base key => exact ⟨h.1.all, h.2.all⟩
  | next base last =>
    cases last with
    | none => exact ⟨h.1.all, trivial⟩
    | some key => exact ⟨h.1.all, (h.2 key rfl).all⟩
  | upvalue base i | metatable base | userPayload base => exact Value.Built.all h
  | frameLocal | frameFunction => trivial

theorem Recorded.lookup_inherits (hP : Handle.Inherited P) {key : Value} (hk : key.All P) {v : Live}
    {b h : Handle} (hb : P b) {lookup : Lookup} (made : (record key v).lookup b lookup = .ok h) :
    P h := by
  have hconstant : ∀ s, (Recorded.constant s).lookup b lookup = .ok h → P h := by
    intro s hs
    cases lookup with
    | get => exact hP.index hb hs
    | next => exact hP.nextKey hb hs
  have hobject : ∀ k, P k → (Recorded.object k).lookup b lookup = .ok h → P h := by
    intro k hk hs
    cases lookup with
    | get => exact hP.indexObject hb hk hs
    | next => exact hP.indexObject hb hk hs
  cases key with
  | scalar s => exact hconstant s made
  | handle k =>
    simp only [record] at made
    cases hc : v.copy? <;> simp only [hc] at made
    · exact hobject k hk made
    · exact hconstant _ made

/-- The faults of the handles that the operation puts together are allowed. The handle of the value
after a key is put together from what is given as that key. -/
def Request.Composes (t : Target) (allowed : Fault → Prop) : Request → Prop
  | index base key => ∀ h v f, base = .handle h → record key v ≠ .constant .nil →
      (record key v).lookup h .get = .error f → allowed f
  | next base last => ∀ h v, base = .handle h →
      (∀ f, (record (last.getD (.scalar .nil)) v).lookup h .next = .error f → allowed f) ∧
      ∀ table key value given f, t.rawNext table v = .entry key value →
        Published key ((record (last.getD (.scalar .nil)) v).lookup h .next) given →
          Answer.entryHandle h given = .error f → allowed f
  | _ => True

/-- What operations rest on: values can be resolved whose handles have `P`. -/
structure Setting (limits : Limits) (t : Target) (allowed : Fault → Prop) (own : Live → Prop)
    (P : Handle → Prop) : Prop where
  grounds : Grounds t allowed own
  inherited : Handle.Inherited P
  evaluate {h : Handle} (hh : P h) : Keeps limits t allowed 0 1 (evaluate h) own

theorem publish_keeps (v : Live) {lazy : Except Fault Handle}
    (hlazy : ∀ f, lazy = .error f → allowed f) :
    Keeps limits t allowed held held (publish v lazy) (Published v lazy) := by
  cases v with
  | scalar s => exact .seq (.emit nofun) fun _ _ => .pure rfl
  | object id =>
    cases lazy with
    | ok h =>
      refine .seq (Q := fun h' => h' = h) (.pure rfl) fun h' he => ?_
      exact .seq (.emit nofun) fun _ _ => .pure (congrArg Except.ok he.symm)
    | error f =>
      have hfault :
          Keeps limits t allowed held held (ofExcept (.error f)) fun _ : Handle => False :=
        .fault (hlazy f rfl)
      exact .seq hfault nofun

theorem publish_ok_keeps (v : Live) {h : Handle} (hh : P h) :
    Keeps limits t allowed held held (publish v (.ok h)) (Value.All P) :=
  (publish_keeps v nofun).mono fun _ hvalue => hvalue.all fun _ he => Except.ok.inj he ▸ hh

theorem refer_keeps {v : Live} (hv : own v) {h : Handle} (hh : P h) :
    Keeps limits t allowed 0 0 (do holding (pin v) fun _ => emit (.referred h); return h) P := by
  refine .seq (.holding (.pin hv) fun _ _ => .emit nofun) fun _ _ => ?_
  exact .pure hh

variable (hset : Setting limits t allowed own P)
include hset

theorem resolve_keeps {value : Value} (hvalue : value.All P) :
    Keeps limits t allowed 0 1 (resolve value) own := by
  cases value with
  | scalar s => exact .seq .reserve fun _ _ => .pin (hset.grounds.scalar s)
  | handle h => exact hset.evaluate hvalue

theorem fromBase_keeps {base : Value} (hb : base.All P) {expected : Expectation}
    {work : Live → Handle → Inspect α}
    (hw : ∀ v h, base = .handle h → P h → Keeps limits t allowed 0 0 (work v h) Q) :
    Keeps limits t allowed 0 0 (fromBase base expected work) Q := by
  refine .holding (resolve_keeps hset hb) fun v hv => ?_
  refine .seq (.kindOf hset.grounds hv) fun kind _ => ?_
  cases base with
  | scalar s => exact .fail _
  | handle h =>
    by_cases ha : expected.accepts kind
    · simp only [ha, ↓reduceIte]
      exact hw v h rfl hb
    · simp only [ha, ↓reduceIte, Bool.false_eq_true]
      exact .fail _

theorem query_keeps {value : Value} (hvalue : value.All P) :
    Keeps limits t allowed 0 0 (query value) fun r => r.value.All P := by
  apply Keeps.rejecting
  cases value with
  | scalar s => exact .pure trivial
  | handle h =>
    refine .holding (resolve_keeps hset hvalue) fun v hv => ?_
    refine .seq (.kindOf hset.grounds hv) fun kind _ => ?_
    exact .seq (publish_ok_keeps v hvalue) fun _ hgiven => .pure hgiven

theorem typeOf_keeps {value : Value} (hvalue : value.All P) :
    Keeps limits t allowed 0 0 (typeOf value) fun _ => True := by
  apply Keeps.rejecting
  refine .holding (resolve_keeps hset hvalue) fun v hv => ?_
  exact (Keeps.kindOf hset.grounds hv).mono fun _ _ => trivial

theorem typeName_keeps {value : Value} (hvalue : value.All P) :
    Keeps limits t allowed 0 0 (typeName value) fun _ => True := by
  apply Keeps.seq (typeOf_keeps hset hvalue).attempt
  rintro (f | kind) -
  · exact .pure trivial
  · exact .pure trivial

theorem display_keeps {value : Value} (hvalue : value.All P) :
    Keeps limits t allowed 0 0 (display value) fun _ => True := by
  apply Keeps.rejecting
  refine .holding (resolve_keeps hset hvalue) fun v hv => ?_
  cases v.copy? with
  | some s => exact .pure trivial
  | none => exact .seq (.kindOf hset.grounds hv) fun kind _ => .pure trivial

theorem describeCallable_keeps {value : Value} (hvalue : value.All P)
    (symbols : UInt64 → Symbol) :
    Keeps limits t allowed 0 0 (describeCallable value symbols) fun _ => True := by
  apply Keeps.rejecting
  refine .holding (resolve_keeps hset hvalue) fun v _ => ?_
  refine .target_bind fun n => ?_
  cases (t.withPinned n).code? v with
  | none => exact .pure trivial
  | some code => cases code <;> exact .pure trivial

theorem index_keeps {base key : Value} (hb : base.All P) (hk : key.All P)
    (hfaults : (Request.index base key).Composes t allowed) :
    Keeps limits t allowed 0 0 (index base key) (Value.All P) := by
  apply Keeps.rejecting
  refine .refusing _ fun _ => ?_
  refine fromBase_keeps hset hb fun table h hbase hh => ?_
  refine .holding (resolve_keeps hset hk) fun k _ => ?_
  refine .refusing _ fun hnil => ?_
  refine .seq .reserve fun _ _ => ?_
  have hget : Keeps limits t allowed 0 1 (do pin ((← target).rawGet table k)) own :=
    .target_bind fun _ => .pin (hset.grounds.rawGet table k)
  refine .holding hget fun v hv => ?_
  refine .seq (.kindOf hset.grounds hv) fun kind _ => ?_
  refine .refusing _ fun _ => ?_
  refine (publish_keeps v fun f => hfaults h k f hbase hnil).mono fun value hvalue => ?_
  exact hvalue.all fun _ => Recorded.lookup_inherits hset.inherited hk hh

theorem next_keeps {base : Value} {last : Option Value} (hb : base.All P)
    (hl : (last.getD (.scalar .nil)).All P)
    (hfaults : (Request.next base last).Composes t allowed) :
    Keeps limits t allowed 0 0 (next base last) fun entry =>
      ∀ key value, entry = some (key, value) → key.All P ∧ value.All P := by
  apply Keeps.rejecting
  refine fromBase_keeps hset hb fun table h hbase hh => ?_
  rw [resolveLast_eq]
  refine .holding (resolve_keeps hset hl) fun k _ => ?_
  refine .seq .reserve fun _ _ => ?_
  refine .target_bind fun n => ?_
  rw [Target.rawNext_withPinned]
  cases hn : t.rawNext table k with
  | entry k' v =>
    obtain ⟨-, hv⟩ := hset.grounds.rawNext hn
    obtain ⟨hkey, hvalue⟩ := hfaults h k hbase
    apply Keeps.holding (.pin (Eq.refl k'))
    rintro _ rfl
    refine .holding (.pin hv) fun v _ => ?_
    refine .seq (publish_keeps k' hkey) fun given hgiven => ?_
    have hgivenAll : given.All P :=
      hgiven.all fun _ => Recorded.lookup_inherits hset.inherited hl hh
    refine .seq (publish_keeps v fun f => hvalue table k' _ given f hn hgiven) fun value hlast => ?_
    apply Keeps.pure
    rintro _ _ ⟨⟩
    refine ⟨hgivenAll, hlast.all fun h' made => ?_⟩
    cases given with
    | scalar s => exact hset.inherited.index hh made
    | handle key => exact hset.inherited.indexObject hh hgivenAll made
  | finished => exact .pure nofun
  | unknownKey => exact .fail _

theorem upvalue_keeps {base : Value} (hb : base.All P) (i : UInt32) :
    Keeps limits t allowed 0 0 (upvalue base i) fun binding => binding.2.All P := by
  apply Keeps.rejecting
  refine fromBase_keeps hset hb fun function h _ hh => ?_
  refine .seq .reserve fun _ _ => ?_
  refine .target_bind fun n => ?_
  rw [Target.upvalue?_withPinned]
  cases hu : t.upvalue? function i with
  | some binding =>
    refine .holding (.pin (hset.grounds.upvalue hu)) fun v _ => ?_
    refine .seq (publish_ok_keeps v (hset.inherited.upvalue hh i)) fun value hvalue => ?_
    exact .pure hvalue
  | none => exact .fail _

theorem metatableHandle_keeps {base : Value} (hb : base.All P) (kind : Kind) :
    Keeps limits t allowed 0 0 (metatableHandle base kind) P := by
  unfold metatableHandle
  split
  · cases base with
    | handle h => exact .pure (hset.inherited.metatable hb)
    | scalar s => exact .fail _
  · split
    · exact .pure (hset.inherited.kindMetatable kind)
    · exact .fail _

theorem metatable_keeps {base : Value} (hb : base.All P) :
    Keeps limits t allowed 0 0 (metatable base) P := by
  apply Keeps.rejecting
  refine .holding (resolve_keeps hset hb) fun v hv => ?_
  refine .seq (.kindOf hset.grounds hv) fun kind _ => ?_
  refine .seq (metatableHandle_keeps hset hb kind) fun h hh => ?_
  refine .seq .reserve fun _ _ => ?_
  refine .target_bind fun n => ?_
  rw [Target.metatable?_withPinned]
  cases hm : t.metatable? v with
  | some m => exact refer_keeps (hset.grounds.metatable hm) hh
  | none => exact .failing _ _

theorem userPayload_keeps {base : Value} (hb : base.All P) :
    Keeps limits t allowed 0 0 (userPayload base) (Value.All P) := by
  apply Keeps.rejecting
  refine fromBase_keeps hset hb fun v h _ hh => ?_
  refine .seq .reserve fun _ _ => ?_
  refine .target_bind fun n => ?_
  rw [Target.payload?_withPinned]
  cases hp : t.payload? v with
  | some payload =>
    refine .holding (.pin (hset.grounds.payload hp)) fun payload _ => ?_
    exact publish_ok_keeps payload (hset.inherited.userPayload hh)
  | none => exact .fail _

theorem frameLocal_keeps (frame : UInt16) (slot : UInt32) :
    Keeps limits t allowed 0 0 (frameLocal frame slot) fun binding => binding.2.All P := by
  apply Keeps.rejecting
  refine .target_bind fun n => ?_
  split
  · apply Keeps.seq .reserve
    intro _ _
    refine .target_bind fun n => ?_
    rw [Target.frameLocal?_withPinned]
    cases hl : t.frameLocal? frame slot with
    | some binding =>
      refine .holding (.pin (hset.grounds.frameLocal hl)) fun v _ => ?_
      refine .seq (publish_ok_keeps v (hset.inherited.frameLocal frame slot)) fun value hvalue => ?_
      exact .pure hvalue
    | none => exact .fail _
  · exact .failing _ _

theorem frameFunction_keeps (frame : UInt16) :
    Keeps limits t allowed 0 0 (frameFunction frame) P := by
  apply Keeps.rejecting
  refine .seq .reserve fun _ _ => ?_
  refine .target_bind fun n => ?_
  rw [Target.frameFunction?_withPinned]
  cases hf : t.frameFunction? frame with
  | some v =>
    exact refer_keeps (hset.grounds.frameFunction hf) (hset.inherited.frameFunction frame)
  | none => exact .failing _ _

theorem answers_keeps {request : Request} (h : request.All P)
    (hfaults : request.Composes t allowed) :
    Keeps limits t allowed 0 0 request.answers fun values => ∀ value ∈ values, value.All P := by
  have hone : ∀ {value : Value}, value.All P → ∀ v ∈ [value], v.All P := by
    intro value hvalue v hv
    rwa [List.mem_singleton.mp hv]
  cases request with
  | query value => exact .seq (query_keeps hset h) fun _ hr => .pure (hone hr)
  | index base key => exact .seq (index_keeps hset h.1 h.2 hfaults) fun _ hv => .pure (hone hv)
  | next base last =>
    refine .seq (next_keeps hset h.1 h.2 hfaults) fun entry hentry => .pure ?_
    match entry with
    | none => simp
    | some (key, value) => simpa using hentry key value rfl
  | upvalue base i => exact .seq (upvalue_keeps hset h i) fun _ hv => .pure (hone hv)
  | metatable base => exact .seq (metatable_keeps hset h) fun _ hh => .pure (hone hh)
  | userPayload base => exact .seq (userPayload_keeps hset h) fun _ hv => .pure (hone hv)
  | frameLocal frame slot =>
    exact .seq (frameLocal_keeps hset frame slot) fun _ hv => .pure (hone hv)
  | frameFunction frame => exact .seq (frameFunction_keeps hset frame) fun _ hh => .pure (hone hh)

end Inspect

end RemoteInspect
