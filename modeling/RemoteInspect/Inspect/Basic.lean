import RemoteInspect.Inspect.Event
import RemoteInspect.Target.WorkingArea

namespace RemoteInspect

/-- The nesting of the paths followed, and the slots reserved before each step. -/
structure Limits where
  recursion : Nat
  reserve : Nat
deriving DecidableEq, Repr

def Limits.standard : Limits := ⟨200, 3⟩

/-- A target under inspection. `peak` is the largest number of pinned values so far, and the
last event comes first. -/
structure Session where
  target : Target
  peak : Nat
  events : List Event

def Session.start (t : Target) : Session := ⟨t, t.pinned, []⟩

inductive Stop
  | failure (f : Failure)
  | fault (f : Fault)
deriving DecidableEq, Repr

structure Inspect (α : Type) where
  run : Limits → Session → Except Stop α × Session

namespace Inspect

variable {α β γ : Type}

protected def pure (a : α) : Inspect α := ⟨fun _ s => (.ok a, s)⟩

protected def bind (m : Inspect α) (f : α → Inspect β) : Inspect β := ⟨fun limits s =>
  match m.run limits s with
  | (.ok a, s) => (f a).run limits s
  | (.error e, s) => (.error e, s)⟩

instance : Monad Inspect where
  pure := Inspect.pure
  bind := Inspect.bind

theorem run_pure (a : α) (limits : Limits) (s : Session) :
    (pure a : Inspect α).run limits s = (.ok a, s) := rfl

theorem run_bind (m : Inspect α) (f : α → Inspect β) (limits : Limits) (s : Session) :
    (m >>= f).run limits s =
      match m.run limits s with
      | (.ok a, s) => (f a).run limits s
      | (.error e, s) => (.error e, s) := rfl

theorem ext {m n : Inspect α} (h : ∀ limits s, m.run limits s = n.run limits s) : m = n := by
  cases m; cases n
  exact congrArg Inspect.mk (funext fun limits => funext fun s => h limits s)

instance : LawfulMonad Inspect := LawfulMonad.mk' Inspect
  (fun m => ext fun limits s => by
    change (m >>= fun a => pure a).run limits s = m.run limits s
    rw [run_bind]
    rcases m.run limits s with ⟨_ | _, _⟩ <;> rfl)
  (fun _ _ => rfl)
  (fun m f g => ext fun limits s => by
    rw [run_bind, run_bind, run_bind]
    rcases m.run limits s with ⟨_ | _, _⟩ <;> rfl)

def limits : Inspect Limits := ⟨fun limits s => (.ok limits, s)⟩

def target : Inspect Target := ⟨fun _ s => (.ok s.target, s)⟩

def fail (f : Failure) : Inspect α := ⟨fun _ s => (.error (.failure f), s)⟩

def fault (f : Fault) : Inspect α := ⟨fun _ s => (.error (.fault f), s)⟩

def ofExcept : Except Fault α → Inspect α
  | .ok a => pure a
  | .error f => fault f

def emit (e : Event) : Inspect Unit :=
  ⟨fun _ s => (.ok (), { s with events := e :: s.events })⟩

def pin (v : Live) : Inspect Live := ⟨fun _ s =>
  let t := s.target.pin
  (.ok v, { s with target := t, peak := max s.peak t.pinned })⟩

def release : Inspect Unit := ⟨fun _ s =>
  if s.target.pinned = 0 then (.error (.fault .nothingPinned), s)
  else (.ok (), { s with target := s.target.release })⟩

/-- Works with a pinned value, whose slot is free again afterwards, whatever happens. -/
def holding (pinned : Inspect Live) (work : Live → Inspect α) : Inspect α := ⟨fun limits s =>
  match pinned.run limits s with
  | (.ok v, s) =>
    let (result, s) := (work v).run limits s
    match release.run limits s with
    | (.ok (), s) => (result, s)
    | (.error e, s) => (.error e, s)
  | (.error e, s) => (.error e, s)⟩

/-- Whether the working area has room for what a step may pin. -/
def roomy : Inspect Bool := ⟨fun limits s =>
  match s.target.reserve limits.reserve with
  | .ok room => (.ok room, s)
  | .error f => (.error (.fault f), s)⟩

def reserve : Inspect Unit := do
  unless ← roomy do fail (.exhausted .workingArea)

def kindOf (v : Live) : Inspect Kind := do
  match (← target).kind? v with
  | some kind => return kind
  | none => fault .outOfRange

/-- A failure of the inspection is a result of this one. -/
def attempt (m : Inspect α) : Inspect (Except Failure α) := ⟨fun limits s =>
  match m.run limits s with
  | (.ok a, s) => (.ok (.ok a), s)
  | (.error (.failure f), s) => (.ok (.error f), s)
  | (.error (.fault f), s) => (.error (.fault f), s)⟩

def rejecting (operation : Operation) (m : Inspect α) : Inspect α := do
  match ← m.attempt with
  | .ok a => return a
  | .error f =>
    emit (.rejected operation f)
    fail f

end Inspect

end RemoteInspect
