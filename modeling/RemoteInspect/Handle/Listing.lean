import RemoteInspect.Handle.Basic

namespace RemoteInspect.Handle

def stepLine (width : Nat) (s : Step) (pos : Nat) : String :=
  let number := toString pos
  "  ".pushn ' ' (width - number.length) ++ number ++ " " ++ s.text ++ "\n"

def entryLine (s : Scalar) (pos : Nat) : String :=
  s!"  #{pos + 1} " ++ s.quoted ++ "\n"

def concat (lines : List String) : String :=
  lines.foldl (· ++ ·) ""

def listing (h : Handle) : String :=
  let width := (toString (h.path.size - 1)).length
  let steps := "steps:\n" ++ concat (h.path.steps.zipIdx.map fun (s, pos) => stepLine width s pos)
  if h.pool.entries.isEmpty then steps
  else
    steps ++ "pool:\n" ++ concat (h.pool.entries.zipIdx.map fun (s, pos) => entryLine s pos)

end RemoteInspect.Handle
