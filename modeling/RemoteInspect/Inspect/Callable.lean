import RemoteInspect.Inspect.Reading

namespace RemoteInspect

structure Symbol where
  base : Option UInt64
  file : Option String
deriving DecidableEq, Repr

def Symbol.unknown : Symbol := ⟨none, none⟩

inductive Callable
  | native (address : UInt64) (symbol : Symbol)
  | script (source : String) (firstLine lastLine : Int64)
  | status (code : Int32)
deriving DecidableEq, Repr

namespace Callable

def optional (name : String) : Option Document → List (String × Document)
  | some d => [(name, d)]
  | none => []

def document : Callable → Document
  | native address symbol => .record <|
    ("pointer_address", .text (Text.address address.toNat)) ::
      optional "symbol_base" (symbol.base.map fun base => .text (Text.address base.toNat)) ++
      optional "symbol_file" (symbol.file.map .text)
  | script source firstLine lastLine => .record
    [("source", .text source), ("linedefined", .integer firstLine.toInt),
      ("lastlinedefined", .integer lastLine.toInt)]
  | status code => .integer code.toInt

end Callable

def Inspect.describeCallable (value : Value) (symbols : UInt64 → Symbol) : Inspect Callable :=
  rejecting .describeCallable <| holding (resolve value) fun v => do
    let t ← target
    match t.code? v with
    | some (.native address) => return .native address (symbols address)
    | some (.script source firstLine lastLine) => return .script source firstLine lastLine
    | none => return .status t.status

end RemoteInspect
