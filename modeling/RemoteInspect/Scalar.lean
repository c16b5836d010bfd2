import RemoteInspect.Document
import RemoteInspect.Kind
import RemoteInspect.Text.Lossy
import RemoteInspect.Text.Quoted

namespace RemoteInspect

/-- A value that crosses into and out of the target by copy. Strings are octets, not always
UTF-8. -/
inductive Scalar
  | nil
  | boolean (b : Bool)
  | integer (i : Int64)
  | float (x : Binary64)
  | string (bytes : List UInt8)
  | pointer (p : UInt64)
deriving DecidableEq, Repr

namespace Scalar

def kind : Scalar → Kind
  | nil => .nil
  | boolean _ => .boolean
  | integer _ | float _ => .number
  | string _ => .string
  | pointer _ => .pointer

/-- Equality of the values denoted: floats are compared as numbers, and never with integers. -/
def agrees : Scalar → Scalar → Bool
  | float x, float y => x.numEq y
  | s, t => s = t

def text : Scalar → String
  | nil => "nil"
  | boolean true => "true"
  | boolean false => "false"
  | integer i => toString i.toInt
  | float x => x.text
  | string bytes => String.ofList (Text.decode bytes)
  | pointer p => "userdata: " ++ Text.address p.toNat

def quoted : Scalar → String
  | string bytes => String.ofList (Text.quote (Text.decode bytes))
  | s => s.text

def description (s : Scalar) : String :=
  "[" ++ s.kind.name ++ ":" ++ s.text ++ "]"

def document : Scalar → Document
  | nil => .null
  | boolean b => .boolean b
  | integer i => .integer i.toInt
  | float x => .ofFloat x
  | string bytes => .text (String.ofList (Text.decode bytes))
  | pointer p => .text (Text.address p.toNat)

end Scalar

end RemoteInspect
