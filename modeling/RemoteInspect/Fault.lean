import RemoteInspect.Path.Step

namespace RemoteInspect

/-- A broken promise of the caller. Nothing has changed when one is reported. -/
inductive Fault
  | nilKey
  | noBase (step : Step)
  | noKey (step : Step)
  | poolTooLarge
  | baseTooLarge
  | referenceTooLarge
  | badTableKey
  | notATable
  | notAFunction
  | metatableNotATable
  | frameNotAnObject
  | emptyCallStack
  | heapExhausted
  | nothingPinned
  | outOfRange
deriving DecidableEq, Repr

def Fault.message? : Fault → Option String
  | nilKey => "nil key cannot be looked up"
  | noBase step => step.text ++ " has no base"
  | noKey step => step.text ++ " has no key subpath"
  | poolTooLarge => "pool exceeds u32 entries"
  | baseTooLarge => "base path exceeds u32 records"
  | referenceTooLarge => "pool reference overflow"
  | badTableKey => "nil or NaN table key"
  | notATable => "set on a non-table"
  | notAFunction => "set_upvalue on a non-function"
  | metatableNotATable => "metatable must be a table"
  | frameNotAnObject => "frame function must be an object"
  | emptyCallStack => "pop on empty call stack"
  | heapExhausted => "sim heap exhausted"
  | nothingPinned | outOfRange => none

end RemoteInspect
