import RemoteInspect.Proofs.Inspect.Balance
import RemoteInspect.Proofs.Inspect.Rederivation
import RemoteInspect.Proofs.Target.Changes

namespace RemoteInspect

namespace Inspect

inductive Call
  | request (r : Request)
  | typeOf (value : Value)
  | typeName (value : Value)
  | display (value : Value)
  | describeCallable (value : Value) (symbols : UInt64 → Symbol)

def Call.perform : Call → Inspect Unit
  | request r => do let _ ← r.answers
  | typeOf value => do let _ ← Inspect.typeOf value
  | typeName value => do let _ ← Inspect.typeName value
  | display value => do let _ ← Inspect.display value
  | describeCallable value symbols => do let _ ← Inspect.describeCallable value symbols

def Call.All (P : Handle → Prop) : Call → Prop
  | request r => r.All P
  | typeOf value | typeName value | display value | describeCallable value _ => value.All P

def Call.Composes (t : Target) (allowed : Fault → Prop) : Call → Prop
  | request r => r.Composes t allowed
  | _ => True

theorem perform_keeps {limits : Limits} {t : Target} {allowed : Fault → Prop} {own : Live → Prop}
    {P : Handle → Prop} (hset : Setting limits t allowed own P) {call : Call} (h : call.All P)
    (hfaults : call.Composes t allowed) :
    Keeps limits t allowed 0 0 call.perform fun _ => True := by
  cases call with
  | request r => exact .seq (answers_keeps hset h hfaults) fun _ _ => .pure trivial
  | typeOf value => exact .seq (typeOf_keeps hset h) fun _ _ => .pure trivial
  | typeName value => exact .seq (typeName_keeps hset h) fun _ _ => .pure trivial
  | display value => exact .seq (display_keeps hset h) fun _ _ => .pure trivial
  | describeCallable value symbols =>
    exact .seq (describeCallable_keeps hset h symbols) fun _ _ => .pure trivial

theorem inherited_true : Handle.Inherited fun _ => True := by
  constructor <;> intros <;> trivial

theorem perform_balances (call : Call) (limits : Limits) (t : Target) :
    Keeps limits t Unrelated 0 0 call.perform fun _ => True := by
  have hvalue : ∀ value : Value, value.All fun _ => True := by
    intro value
    cases value <;> trivial
  apply perform_keeps (.any inherited_true)
  · cases call with
    | request r =>
      cases r with
      | index base key => exact ⟨hvalue base, hvalue key⟩
      | next base last => exact ⟨hvalue base, hvalue _⟩
      | query value | upvalue value | metatable value | userPayload value => exact hvalue value
      | frameLocal | frameFunction => trivial
    | typeOf value | typeName value | display value | describeCallable value =>
      exact hvalue value
  · cases call with
    | request r => exact r.composes_any
    | typeOf | typeName | display | describeCallable => trivial

end Inspect

open Inspect (Balanced evaluate)

/-- A target, and the values of it that are held, each in a slot of its own. -/
structure Custody where
  target : Target
  held : List Live

namespace Custody

inductive Action
  | change (c : Target.Change)
  | access (a : Target.Access)
  | clone (i : Nat)
  | drop (i : Nat)
  | inspect (limits : Limits) (call : Inspect.Call)

def new (capacity : Nat) : Custody := ⟨{ Target.initial with capacity }, []⟩

def take (c : Custody) (vs : List Live) : Custody :=
  ⟨vs.foldl (fun t _ => t.pin) c.target, c.held ++ vs⟩

/-- A change that faults changes nothing. Only what is held can be cloned or dropped. -/
def act (c : Custody) : Action → Custody
  | .change x => match c.target.change x with
    | .ok t => { c with target := t }
    | .error _ => c
  | .access a => c.take (c.target.accessed a)
  | .clone i => c.take c.held[i]?.toList
  | .drop i => if i < c.held.length then ⟨c.target.release, c.held.eraseIdx i⟩ else c
  | .inspect limits call => { c with target := (call.perform.outcome limits c.target).target }

def run (c : Custody) (actions : List Action) : Custody :=
  actions.foldl act c

theorem pinned_foldl_pin (vs : List Live) (t : Target) :
    (vs.foldl (fun t _ => t.pin) t).pinned = t.pinned + vs.length := by
  induction vs generalizing t with
  | nil => rfl
  | cons v rest ih =>
    rw [List.foldl_cons, ih, List.length_cons]
    exact Nat.add_right_comm t.pinned 1 rest.length

variable {c : Custody}

theorem pinned_take (hc : c.target.pinned = c.held.length) (vs : List Live) :
    (c.take vs).target.pinned = (c.take vs).held.length := by
  rw [take, pinned_foldl_pin, hc, List.length_append]

theorem pinned_act (hc : c.target.pinned = c.held.length) (a : Action) :
    (c.act a).target.pinned = (c.act a).held.length := by
  cases a with
  | change x =>
    rw [act]
    split
    · rename_i t ht
      exact (Target.pinned_change ht).trans hc
    · exact hc
  | access a => exact pinned_take hc _
  | clone i => exact pinned_take hc _
  | drop i =>
    rw [act]
    split
    · rename_i hi
      rw [List.length_eraseIdx_of_lt hi, ← hc]
      rfl
    · exact hc
  | inspect limits call =>
    have htarget := (Inspect.perform_balances call limits c.target).outcome_target
    simpa only [act, htarget] using hc

theorem pinned_run (hc : c.target.pinned = c.held.length) (actions : List Action) :
    (c.run actions).target.pinned = (c.run actions).held.length := by
  induction actions generalizing c with
  | nil => exact hc
  | cons a rest ih => exact ih (pinned_act hc a)

/-- After any actions as many values are pinned as are held. Whatever is asked then, with whatever
answer, leaves the target as it was; a handle that is followed leaves its value pinned, or
nothing. -/
theorem run_balanced (capacity : Nat) (actions : List Action) :
    let c := (new capacity).run actions
    c.target.pinned = c.held.length ∧
      (∀ (call : Inspect.Call) limits peak events,
        Balanced c.target 0 (call.perform.run limits ⟨c.target, peak, events⟩)) ∧
      ∀ (h : Handle) limits peak events,
        Balanced c.target 1 ((evaluate h).run limits ⟨c.target, peak, events⟩) := by
  intro c
  have hc : c.target.pinned = c.held.length := pinned_run rfl actions
  have hset : ∀ limits, Inspect.Setting limits c.target Inspect.Unrelated _ _ :=
    fun _ => .any Inspect.inherited_true
  exact ⟨hc, fun call limits _ _ => (Inspect.perform_balances call limits c.target).balanced rfl,
    fun h limits _ _ => ((hset limits).evaluate (h := h) trivial).balanced rfl⟩

end Custody

end RemoteInspect
