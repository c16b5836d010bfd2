import RemoteInspect.Binary64

namespace RemoteInspect

inductive Document
  | null
  | boolean (b : Bool)
  | integer (i : Int)
  | float (x : Binary64)
  | text (s : String)
  | record (fields : List (String × Document))

def Document.ofFloat (x : Binary64) : Document :=
  if x.isFinite then .float x else .null

end RemoteInspect
