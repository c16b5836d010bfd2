import RemoteInspect.Inspect.Basic

namespace RemoteInspect

inductive Verbosity
  | quiet
  | verbose
  | veryVerbose
deriving DecidableEq, Repr

/-- Steps are shown from `verbose` on, and from `veryVerbose` on already when entered. -/
def Verbosity.shows (v : Verbosity) : Event → Bool
  | .entered .. => v = .veryVerbose
  | .resolved .. => v ≠ .quiet
  | .failed .. | .rejected .. | .copied _ | .referred _ => true

structure Palette where
  blue : String
  green : String
  dim : String
  reset : String
deriving DecidableEq, Repr

namespace Palette

def plain : Palette := ⟨"", "", "", ""⟩

def ansi : Palette := ⟨"\x1b[34m", "\x1b[32m", "\x1b[2m", "\x1b[0m"⟩

variable (p : Palette)

def kind (s : String) : String := p.blue ++ s ++ p.reset

def copy (s : String) : String := p.green ++ s ++ p.reset

def mark (s : String) : String := p.dim ++ s ++ p.reset

end Palette

namespace Event

def indent (depth : Nat) : String :=
  "".pushn ' ' (2 * depth)

def line (p : Palette) : Event → String
  | entered s depth => indent depth ++ p.mark ">" ++ " " ++ s.text
  | resolved s depth kind => indent depth ++ s.text ++ " " ++ p.kind kind.name
  | failed s depth f => indent depth ++ s.text ++ " " ++ p.mark "!" ++ " " ++ f.message
  | rejected operation f => operation.name ++ " " ++ p.mark "!" ++ " " ++ f.message
  | copied s => "copy " ++ p.copy s.quoted
  | referred h => "handle " ++ p.kind h.description

end Event

def Session.transcript (s : Session) (v : Verbosity) (p : Palette) : List String :=
  (s.events.reverse.filter v.shows).map (Event.line p)

end RemoteInspect
