import RemoteInspect.Inspect.Callable
import RemoteInspect.Proofs.Inspect.Answer

namespace RemoteInspect

namespace Answer

variable (t : Target)

def kindOf (v : Live) : Except Stop Kind :=
  match t.kind? v with
  | some kind => .ok kind
  | none => .error (.fault .outOfRange)

def typeOf (v : Except Stop Live) : Except Stop Kind := do
  kindOf t (← v)

def display (v : Except Stop Live) : Except Stop Scalar := do
  let v ← v
  match v.copy? with
  | some s => return s
  | none =>
    let text := "[" ++ (← kindOf t v).name ++ ": " ++ Text.address (v.address?.getD 0) ++ "]"
    return .string text.toUTF8.toList

def describeCallable (symbols : UInt64 → Symbol) (v : Except Stop Live) : Except Stop Callable := do
  match t.code? (← v) with
  | some (.native address) => return .native address (symbols address)
  | some (.script source firstLine lastLine) => return .script source firstLine lastLine
  | none => return .status t.status

/-- A failure leaves no more than the name for what has no value. -/
def typeName : Except Stop Kind → Except Stop String
  | .ok kind => .ok kind.name
  | .error (.failure _) => .ok Kind.noValue
  | .error (.fault f) => .error (.fault f)

end Answer

namespace Inspect

variable {limits : Limits} {t : Target} {n : Nat} {value : Value} {m : Meaning}

theorem kindOf_runs {v : Live} (hv : t.Owns v) :
    Runs limits t n 0 (kindOf v) (Answer.kindOf t v) := by
  obtain ⟨kind, hk⟩ := hv
  rw [Answer.kindOf, hk]
  exact .kindOf hk

theorem typeOf_runs (ht : t.Sound) (hm : value.Denotes m) :
    Runs limits t n 0 (typeOf value) (Answer.typeOf t (m.limited limits t n)) := by
  apply Runs.rejecting
  apply Runs.holding (resolve_runs ht hm)
  exact fun v hv => kindOf_runs (Meaning.owns_limited ht hv)

theorem typeName_runs (ht : t.Sound) (hm : value.Denotes m) :
    Runs limits t n 0 (typeName value)
      (Answer.typeName (Answer.typeOf t (m.limited limits t n))) := by
  have htype : Runs limits t n 0 (typeOf value) (Answer.typeOf t (m.limited limits t n)) :=
    typeOf_runs ht hm
  generalize Answer.typeOf t (m.limited limits t n) = r at htype ⊢
  obtain (f | f) | kind := r
  · exact .seq htype.attempt (.pure _)
  · exact .stop htype.attempt
  · exact .seq htype.attempt (.pure _)

theorem display_runs (ht : t.Sound) (hm : value.Denotes m) :
    Runs limits t n 0 (display value) (Answer.display t (m.limited limits t n)) := by
  apply Runs.rejecting
  apply Runs.holding (resolve_runs ht hm)
  intro v hv
  cases hc : v.copy? with
  | some s => exact .pure s
  | none => exact Runs.map _ (kindOf_runs (Meaning.owns_limited ht hv))

theorem describeCallable_runs (ht : t.Sound) (hm : value.Denotes m) (symbols : UInt64 → Symbol) :
    Runs limits t n 0 (describeCallable value symbols)
      (Answer.describeCallable t symbols (m.limited limits t n)) := by
  apply Runs.rejecting
  apply Runs.holding (resolve_runs ht hm)
  intro v hv
  apply Executes.seq .target
  have hcode : (t.withPinned (n + 1)).code? v = t.code? v := rfl
  rw [hcode]
  cases t.code? v with
  | none => exact Executes.pure _
  | some code => cases code <;> exact Executes.pure _

end Inspect

end RemoteInspect
