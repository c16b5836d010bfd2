import RemoteInspect.Inspect.Navigation

namespace RemoteInspect.Inspect

inductive Ending
  | finished
  | failed (f : Failure)
  | interrupted
deriving DecidableEq, Repr

def entriesAfter (base : Value) :
    (count : Nat) → (last : Option Value) → Inspect (List (Value × Value) × Ending)
  | 0, _ => return ([], .interrupted)
  | count + 1, last => do
    match ← (next base last).attempt with
    | .ok (some (key, value)) =>
      let (entries, ending) ← entriesAfter base count (some key)
      return ((key, value) :: entries, ending)
    | .ok none => return ([], .finished)
    | .error f => return ([], .failed f)

def entries (base : Value) (count : Nat) : Inspect (List (Value × Value) × Ending) :=
  entriesAfter base count none

end RemoteInspect.Inspect
