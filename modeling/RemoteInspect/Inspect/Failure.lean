import RemoteInspect.Kind

namespace RemoteInspect

inductive Missing
  | frame (frame : UInt16)
  | frameLocal (frame : UInt16) (slot : UInt32)
  | upvalue (index : UInt32)
  | metatable
  | payload
  | key
  | nextKey
  | poolEntry (reference : UInt32)
deriving DecidableEq, Repr

inductive Expectation
  | table
  | function
  | userdata
  | ownMetatable
deriving DecidableEq, Repr

inductive Unsupported
  | nilKey
  | noSharedMetatable
deriving DecidableEq, Repr

inductive Exhaustion
  | recursionLimit (limit : Nat)
  | workingArea
deriving DecidableEq, Repr

inductive Failure
  | wrongKind (expected : Expectation) (found : Kind)
  | notFound (what : Missing)
  | unsupported (what : Unsupported)
  | exhausted (what : Exhaustion)
deriving DecidableEq, Repr

def Missing.text : Missing → String
  | frame n => s!"frame {n}"
  | frameLocal n slot => s!"local {slot} of frame {n}"
  | upvalue n => s!"upvalue {n}"
  | metatable => "metatable"
  | payload => "user payload"
  | key => "key"
  | nextKey => "next key"
  | poolEntry n => s!"pool entry #{n}"

namespace Expectation

def text : Expectation → String
  | table => "table"
  | function => "function"
  | userdata => "userdata"
  | ownMetatable => "table or userdata"

def accepts : Expectation → Kind → Bool
  | table, kind => kind = .table
  | function, kind => kind = .function
  | userdata, kind => kind = .userdata
  | ownMetatable, kind => kind.hasOwnMetatable

end Expectation

def Unsupported.text : Unsupported → String
  | nilKey => "nil key"
  | noSharedMetatable => "kind has no shared metatable"

def Exhaustion.text : Exhaustion → String
  | recursionLimit n => s!"recursion limit of {n} exceeded"
  | workingArea => "target working area exhausted"

namespace Failure

def message : Failure → String
  | wrongKind expected found => "expected " ++ expected.text ++ ", found " ++ found.name
  | notFound what => what.text ++ " not found"
  | unsupported what => "unsupported: " ++ what.text
  | exhausted what => what.text

def isFatal : Failure → Bool
  | exhausted _ => true
  | _ => false

/-- Failures that are not fatal count as absence. -/
def soften {α : Type} : Except Failure α → Except Failure (Option α)
  | .ok a => .ok (some a)
  | .error f => if f.isFatal then .error f else .ok none

end Failure

end RemoteInspect
