import RemoteInspect.Tree.Basic

namespace RemoteInspect.Tree

def text : Tree Scalar → String
  | frameLocal frame slot => s!"(L {frame} {slot})"
  | frameFunction frame => s!"(f {frame})"
  | root .globals => "_G"
  | root .registry => "_REGISTRY"
  | root .mainThread => "_MAINTHREAD"
  | kindMetatable kind => "(" ++ kind.name ++ " mt)"
  | index .get base key => base.text ++ "." ++ key.text
  | index .next base key => "(next " ++ base.text ++ " " ++ key.text ++ ")"
  | indexObject .get base key => base.text ++ "[" ++ key.text ++ "]"
  | indexObject .next base key => "(next " ++ base.text ++ " " ++ key.text ++ ")"
  | upvalue base n => base.text ++ s!".u[{n}]"
  | metatable base => "(" ++ base.text ++ " mt)"
  | userPayload base => "(" ++ base.text ++ " uv)"

end RemoteInspect.Tree
