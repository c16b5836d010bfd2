import RemoteInspect.Handle.Description
import RemoteInspect.Inspect.Failure

namespace RemoteInspect

inductive Operation
  | query | typeOf | display | describeCallable | index | next | upvalue | metatable
  | userPayload | frameLocal | frameFunction
deriving DecidableEq, Repr

def Operation.name : Operation → String
  | query => "query"
  | typeOf => "type_of"
  | display => "display"
  | describeCallable => "describe_callable"
  | index => "index"
  | next => "next"
  | upvalue => "upvalue"
  | metatable => "metatable"
  | userPayload => "user_payload"
  | frameLocal => "frame_local"
  | frameFunction => "frame_function"

/-- What happens during an inspection. `depth` counts the steps above one. -/
inductive Event
  | entered (step : Step) (depth : Nat)
  | resolved (step : Step) (depth : Nat) (kind : Kind)
  | failed (step : Step) (depth : Nat) (failure : Failure)
  | rejected (operation : Operation) (failure : Failure)
  | copied (s : Scalar)
  | referred (h : Handle)
deriving DecidableEq, Repr

end RemoteInspect
