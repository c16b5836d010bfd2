import RemoteInspect.Inspect.Basic

namespace RemoteInspect

/-- What a finished inspection leaves: a fault undoes it, except for its events. -/
structure Outcome (α : Type) where
  result : Except Stop α
  target : Target
  session : Session

def Inspect.outcome {α : Type} (m : Inspect α) (limits : Limits) (t : Target) : Outcome α :=
  let (result, s) := m.run limits (.start t)
  match result with
  | .error (.fault _) => ⟨result, t, s⟩
  | _ => ⟨result, s.target, s⟩

end RemoteInspect
