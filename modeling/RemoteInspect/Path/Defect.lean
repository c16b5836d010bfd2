namespace RemoteInspect.Path

/-- Why records form no path, or a path no handle. `pos` is the position of the record to blame. -/
inductive Defect
  | empty
  | unknownTag (pos : Nat) (tag : UInt8)
  | invalidMode (pos : Nat) (mode : UInt16)
  | invalidKind (pos : Nat) (code : UInt32)
  | truncated (pos : Nat)
  | baseSize (pos : Nat) (declared : UInt32) (actual : Nat)
  | trailing (size count : Nat)
  | poolReference (pos : Nat) (reference : UInt32) (entries : Nat)
deriving DecidableEq, Repr

def Defect.message : Defect → String
  | empty => "empty path"
  | unknownTag i tag => s!"record {i}: unknown step tag {tag}"
  | invalidMode i mode => s!"record {i}: invalid mode {mode}"
  | invalidKind i code => s!"record {i}: invalid kind code {code}"
  | truncated i => s!"record {i}: subpath runs past the end of the path"
  | baseSize i declared actual =>
    s!"record {i}: declared base size {declared} but base occupies {actual} records"
  | trailing size count => s!"path occupies {size} records but {count} were given"
  | poolReference i reference entries =>
    s!"record {i}: pool reference #{reference} out of range (pool has {entries} entries)"

end RemoteInspect.Path
