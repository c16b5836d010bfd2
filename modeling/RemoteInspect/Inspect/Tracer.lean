import RemoteInspect.Inspect.Transcript

namespace RemoteInspect

inductive Tracer
  | silent
  | printer (verbosity : Verbosity) (palette : Palette)
deriving DecidableEq, Repr

def Tracer.keeps : Tracer → Event → Bool
  | silent, _ => false
  | printer v _, e => v.shows e

structure Inspector where
  limits : Limits
  tracer : Tracer
  session : Session

namespace Inspector

def new (limits : Limits) (tracer : Tracer) (t : Target) : Inspector :=
  ⟨limits, tracer, .start t⟩

/-- The target that is left: a fault undoes what was done to it. -/
def left {α : Type} (before after : Target) : Except Stop α → Target
  | .error (.fault _) => before
  | _ => after

def ask {α : Type} (i : Inspector) (m : Inspect α) : Except Stop α × Inspector :=
  let (result, s) := m.run i.limits i.session
  let target := left i.session.target s.target result
  (result, { i with session := { s with target, events := s.events.filter i.tracer.keeps } })

def lines (i : Inspector) : List String :=
  match i.tracer with
  | .silent => []
  | .printer v p => i.session.transcript v p

end Inspector

end RemoteInspect
