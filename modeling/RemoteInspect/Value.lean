import RemoteInspect.Handle.Description

namespace RemoteInspect

/-- What is known of a value of the target: a copy, or a reference to it. -/
inductive Value
  | scalar (s : Scalar)
  | handle (h : Handle)
deriving DecidableEq, Repr

namespace Value

def scalar? : Value → Option Scalar
  | scalar s => some s
  | handle _ => none

def handle? : Value → Option Handle
  | scalar _ => none
  | handle h => some h

def description : Value → String
  | scalar s => s.description
  | handle h => h.description

def document : Value → Document
  | scalar s => s.document
  | handle h => .text h.description

def agrees : Value → Value → Bool
  | scalar s, scalar t => s.agrees t
  | handle h, handle k => h.agrees k
  | _, _ => false

end Value

end RemoteInspect
