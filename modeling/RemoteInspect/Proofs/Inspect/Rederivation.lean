import Mathlib.Data.List.Forall2
import RemoteInspect.Proofs.Inspect.Naming

namespace RemoteInspect

variable {t : Target}

namespace Inspect

inductive Request
  | query (value : Value)
  | index (base key : Value)
  | next (base : Value) (last : Option Value)
  | upvalue (base : Value) (index : UInt32)
  | metatable (base : Value)
  | userPayload (base : Value)
  | frameLocal (frame : UInt16) (slot : UInt32)
  | frameFunction (frame : UInt16)

end Inspect

def Value.Built : Value → Prop
  | scalar _ => True
  | handle h => h.Built

theorem Value.Built.denotes {value : Value} (h : value.Built) : ∃ m, value.Denotes m := by
  cases value with
  | scalar s => exact ⟨.scalar s, rfl⟩
  | handle h' => exact (Handle.Built.denotes h).imp' Meaning.tree fun _ ht => ht

/-- Where `h` is followed in `t`, it gives `v` or exhausts a resource, under any limits that ask for
no more slots than a word can count. -/
def Handle.Refers (t : Target) (h : Handle) (v : Live) : Prop :=
  ∃ tree, h.HasTree tree ∧ ∀ limits,
    (tree.Overflows limits t t.pinned →
      ((Inspect.evaluate h).outcome limits t).result = .error (.fault .outOfRange)) ∧
    (¬ tree.Overflows limits t t.pinned →
      ((Inspect.evaluate h).outcome limits t).result = .ok v ∨
      ∃ what, ((Inspect.evaluate h).outcome limits t).result = .error (.failure (.exhausted what)))

/-- `value` is the copy of `v`, or a handle that leads to the object that `v` is. -/
def Value.Rederives (t : Target) (value : Value) (v : Live) : Prop :=
  match value with
  | scalar s => v = .scalar s
  | handle h => (∃ id, v = .object id) ∧ h.Refers t v

theorem Handle.Denotes.refers (ht : t.Sound) {h : Handle} {tree : Tree Scalar} {v : Live}
    (hh : h.Denotes tree) (hv : tree.value t = .ok v) : h.Refers t v := by
  refine ⟨tree, hh.hasTree, fun limits => ?_⟩
  rw [(Inspect.evaluate_runs ht hh t.pinned).outcome]
  refine ⟨fun hover => Tree.limited_eq_fault_iff.mpr ⟨rfl, hover⟩, fun hfits => ?_⟩
  obtain h | h | ⟨-, hover⟩ := Tree.limited_cases limits t t.pinned tree
  · exact .inl (by rw [h, hv, Except.mapError_ok])
  · exact .inr h
  · exact absurd hover hfits

theorem Value.Names.rederives (ht : t.Sound) {value : Value} {v : Live} (h : value.Names t v) :
    value.Rederives t v := by
  cases value with
  | scalar s => exact Value.eq_of_resolves_scalar h.1
  | handle h' =>
    obtain ⟨tree, htree, hv⟩ := Value.resolves_handle_iff.mp h.1
    exact ⟨h.2 h' rfl, htree.refers ht hv⟩

theorem Handle.Refers.eq {h : Handle} {limits : Limits} {v v' : Live} (hv : h.Refers t v)
    (h' : ((Inspect.evaluate h).outcome limits t).result = .ok v') : v = v' := by
  obtain ⟨tree, -, hlimits⟩ := hv
  obtain ⟨hover, hfits⟩ := hlimits limits
  by_cases ho : tree.Overflows limits t t.pinned
  · cases h'.symm.trans (hover ho)
  · obtain hr | ⟨what, hr⟩ := hfits ho
    · cases h'.symm.trans hr
      rfl
    · cases h'.symm.trans hr

namespace Inspect

theorem outcome_result_bind_pure {α β : Type} (m : Inspect α) (f : α → β) (limits : Limits)
    (t : Target) : ((m >>= fun a => pure (f a)).outcome limits t).result =
      (m.outcome limits t).result.map f := by
  rw [outcome_result, outcome_result, run_bind]
  obtain ⟨_ | _, _⟩ := m.run limits (.start t) <;> rfl

namespace Request

def answers : Request → Inspect (List Value)
  | query value => do return [(← Inspect.query value).value]
  | index base key => do return [← Inspect.index base key]
  | next base last => do
    return match ← Inspect.next base last with
      | some (key, value) => [key, value]
      | none => []
  | upvalue base i => do return [(← Inspect.upvalue base i).2]
  | metatable base => do return [.handle (← Inspect.metatable base)]
  | userPayload base => do return [← Inspect.userPayload base]
  | frameLocal frame slot => do return [(← Inspect.frameLocal frame slot).2]
  | frameFunction frame => do return [.handle (← Inspect.frameFunction frame)]

def Built : Request → Prop
  | query value => value.Built
  | index base key => base.Built ∧ key.Built
  | next base last => base.Built ∧ ∀ key, last = some key → key.Built
  | upvalue base _ | metatable base | userPayload base => base.Built
  | frameLocal .. | frameFunction _ => True

inductive Finds (t : Target) : Request → List Live → Prop
  | query {value : Value} {v : Live} (found : value.Resolves t v) : Finds t (query value) [v]
  | index {base key : Value} {table k : Live} (ofBase : base.Resolves t table)
      (ofKey : key.Resolves t k) : Finds t (index base key) [t.rawGet table k]
  | entry {base : Value} {last : Option Value} {table k key v : Live}
      (ofBase : base.Resolves t table) (ofLast : (last.getD (.scalar .nil)).Resolves t k)
      (found : t.rawNext table k = .entry key v) : Finds t (next base last) [key, v]
  | finished {base : Value} {last : Option Value} {table k : Live}
      (ofBase : base.Resolves t table) (ofLast : (last.getD (.scalar .nil)).Resolves t k)
      (found : t.rawNext table k = .finished) : Finds t (next base last) []
  | upvalue {base : Value} {i : UInt32} {function v : Live} {name : String}
      (ofBase : base.Resolves t function) (found : t.upvalue? function i = some (name, v)) :
      Finds t (upvalue base i) [v]
  | metatable {base : Value} {v m : Live} (ofBase : base.Resolves t v)
      (found : t.metatable? v = some m) : Finds t (metatable base) [m]
  | userPayload {base : Value} {v payload : Live} (ofBase : base.Resolves t v)
      (found : t.payload? v = some payload) : Finds t (userPayload base) [payload]
  | frameLocal {frame : UInt16} {slot : UInt32} {name : String} {v : Live}
      (found : t.frameLocal? frame slot = some (name, v)) : Finds t (frameLocal frame slot) [v]
  | frameFunction {frame : UInt16} {v : Live} (found : t.frameFunction? frame = some v) :
      Finds t (frameFunction frame) [v]

end Request

theorem answers_names {request : Request} (hbuilt : request.Built) (ht : t.Sound)
    {limits : Limits} {values : List Value}
    (h : (request.answers.outcome limits t).result = .ok values) :
    ∃ found, request.Finds t found ∧ List.Forall₂ (Value.Names t) values found := by
  cases request with
  | query value =>
    rw [Request.answers, outcome_result_bind_pure, Except.map_eq_ok_iff] at h
    obtain ⟨r, hr, rfl⟩ := h
    cases value with
    | scalar s =>
      cases hr
      exact ⟨_, .query (Value.resolves_scalar s), .cons (Value.names_scalar s) .nil⟩
    | handle h =>
      obtain ⟨tree, htree⟩ := Handle.Built.denotes hbuilt
      have hideal := (query_settles ht htree (Nat.le_refl _)).eq_of_ok hr
      obtain ⟨v, hv, hnames⟩ := Answer.query_names htree hideal
      exact ⟨_, .query (Value.resolves_handle_iff.mpr ⟨tree, htree, hv⟩), .cons hnames .nil⟩
  | index base key =>
    rw [Request.answers, outcome_result_bind_pure, Except.map_eq_ok_iff] at h
    obtain ⟨value, hr, rfl⟩ := h
    obtain ⟨b, hb⟩ := hbuilt.1.denotes
    obtain ⟨k, hk⟩ := hbuilt.2.denotes
    have hideal := (index_settles ht hb hk (Nat.le_refl _)).eq_of_ok hr
    obtain ⟨table, k', hv, hkey, hnames⟩ := Answer.index_names hb hk hideal
    exact ⟨_, .index ⟨b, hb, hv⟩ ⟨k, hk, hkey⟩, .cons hnames .nil⟩
  | next base last =>
    rw [Request.answers, outcome_result_bind_pure, Except.map_eq_ok_iff] at h
    obtain ⟨r, hr, rfl⟩ := h
    have hlast : (last.getD (.scalar .nil)).Built := by
      cases last with
      | none => trivial
      | some key => exact hbuilt.2 key rfl
    obtain ⟨b, hb⟩ := hbuilt.1.denotes
    obtain ⟨k, hk⟩ := hlast.denotes
    have hideal := (next_settles ht hb hk (Nat.le_refl _)).eq_of_ok hr
    obtain ⟨table, k', hv, hkey, hnames⟩ := Answer.next_names ht hb hk hideal
    cases r with
    | none => exact ⟨_, .finished ⟨b, hb, hv⟩ ⟨k, hk, hkey⟩ hnames, .nil⟩
    | some entry =>
      obtain ⟨key', value', hn, hkeyNames, hvalueNames⟩ := hnames
      exact ⟨_, .entry ⟨b, hb, hv⟩ ⟨k, hk, hkey⟩ hn, .cons hkeyNames (.cons hvalueNames .nil)⟩
  | upvalue base i =>
    rw [Request.answers, outcome_result_bind_pure, Except.map_eq_ok_iff] at h
    obtain ⟨⟨name, value⟩, hr, rfl⟩ := h
    obtain ⟨b, hb⟩ := Value.Built.denotes hbuilt
    have hideal := (upvalue_settles ht hb i (Nat.le_refl _)).eq_of_ok hr
    obtain ⟨function, v, hv, hu, hnames⟩ := Answer.upvalue_names hb hideal
    exact ⟨_, .upvalue ⟨b, hb, hv⟩ hu, .cons hnames .nil⟩
  | metatable base =>
    rw [Request.answers, outcome_result_bind_pure, Except.map_eq_ok_iff] at h
    obtain ⟨h', hr, rfl⟩ := h
    obtain ⟨b, hb⟩ := Value.Built.denotes hbuilt
    have hideal := (metatable_settles ht hb (Nat.le_refl _)).eq_of_ok hr
    obtain ⟨v, m, hv, hm, hnames⟩ := Answer.metatable_names ht hb hideal
    exact ⟨_, .metatable ⟨b, hb, hv⟩ hm, .cons hnames .nil⟩
  | userPayload base =>
    rw [Request.answers, outcome_result_bind_pure, Except.map_eq_ok_iff] at h
    obtain ⟨value, hr, rfl⟩ := h
    obtain ⟨b, hb⟩ := Value.Built.denotes hbuilt
    have hideal := (userPayload_settles ht hb (Nat.le_refl _)).eq_of_ok hr
    obtain ⟨v, payload, hv, hp, hnames⟩ := Answer.userPayload_names hb hideal
    exact ⟨_, .userPayload ⟨b, hb, hv⟩ hp, .cons hnames .nil⟩
  | frameLocal frame slot =>
    rw [Request.answers, outcome_result_bind_pure, Except.map_eq_ok_iff] at h
    obtain ⟨⟨name, value⟩, hr, rfl⟩ := h
    have hideal := (frameLocal_settles frame slot (Nat.le_refl _)).eq_of_ok hr
    obtain ⟨v, hl, hnames⟩ := Answer.frameLocal_names hideal
    exact ⟨_, .frameLocal hl, .cons hnames .nil⟩
  | frameFunction frame =>
    rw [Request.answers, outcome_result_bind_pure, Except.map_eq_ok_iff] at h
    obtain ⟨h', hr, rfl⟩ := h
    have hideal := (frameFunction_settles frame (Nat.le_refl _)).eq_of_ok hr
    obtain ⟨v, hf, hnames⟩ := Answer.frameFunction_names ht hideal
    exact ⟨_, .frameFunction hf, .cons hnames .nil⟩

/-- What an operation gives as a handle leads, in the same target, to the very object that the
operation found. -/
theorem answers_rederive {request : Request} (hbuilt : request.Built) (ht : t.Reachable)
    {limits : Limits} {values : List Value}
    (h : (request.answers.outcome limits t).result = .ok values) :
    ∃ found, request.Finds t found ∧ List.Forall₂ (Value.Rederives t) values found := by
  obtain ⟨found, hfound, hnames⟩ := answers_names hbuilt ht.sound h
  exact ⟨found, hfound, hnames.imp fun _ _ hn => hn.rederives ht.sound⟩

/-- After a key given as a float comes a userdata, under which there is the table again. -/
theorem answers_rederive_linked :
    let table : Handle := ⟨⟨[.index .get 1, .root .globals]⟩, ⟨[.string [107]]⟩⟩
    let one : Scalar := .float ⟨0x3FF0000000000000⟩
    let key : Handle := ⟨⟨[.index .next 2, .index .get 1, .root .globals]⟩, ⟨[.string [107], one]⟩⟩
    let value : Handle := ⟨⟨[.indexObject .get 2, .index .get 1, .root .globals,
      .index .next 3, .index .get 2, .root .globals]⟩, ⟨[.string [107], .string [107], one]⟩⟩
    let request : Request := .next (.handle table) (some (.scalar one))
    (request.answers.outcome .standard Target.linked).result = .ok [.handle key, .handle value] ∧
      (Value.handle key).Rederives Target.linked (.object 4) ∧
      (Value.handle value).Rederives Target.linked (.object 3) := by
  intro table one key value request
  have htable : table.Built := @Handle.Built.index _ _ (.string [107]) (.root .globals) rfl
  have hrequest : request.Built := ⟨htable, by rintro _ ⟨⟩; trivial⟩
  have hresult : (request.answers.outcome .standard Target.linked).result =
      .ok [.handle key, .handle value] := rfl
  obtain ⟨found, -, hfound⟩ := answers_rederive hrequest Target.reachable_linked hresult
  obtain _ | ⟨hkey, _ | ⟨hvalue, -⟩⟩ := hfound
  have hkeyResult : ((evaluate key).outcome .standard Target.linked).result = .ok (.object 4) := rfl
  have hvalueResult : ((evaluate value).outcome .standard Target.linked).result =
    .ok (.object 3) := rfl
  rw [hkey.2.eq hkeyResult] at hkey
  rw [hvalue.2.eq hvalueResult] at hvalue
  exact ⟨hresult, hkey, hvalue⟩

/-- A word does not hold one more than the most slots it can name. -/
theorem evaluate_overflows_pinned :
    let t : Target := Target.initial.pin
    let globals : Handle := .root .globals
    t.Reachable ∧
      ((Request.query (.handle globals)).answers.outcome .standard t).result =
        .ok [.handle globals] ∧
      ((evaluate globals).outcome ⟨200, UInt64.size - 1⟩ t).result = .error (.fault .outOfRange) :=
  ⟨.step (.initial Target.defaultCapacity) .pin, rfl, rfl⟩

end Inspect

end RemoteInspect
