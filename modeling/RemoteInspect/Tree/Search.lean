import RemoteInspect.Tree.Basic

namespace RemoteInspect.Tree

open RemoteInspect.Path (Defect)

/-- The first of the steps is at position `pos`. -/
def search (pos : Nat) : List Step → Except Defect (Tree UInt32)
  | [] => .error (.truncated pos)
  | .frameLocal frame slot :: _ => .ok (.frameLocal frame slot)
  | .frameFunction frame :: _ => .ok (.frameFunction frame)
  | .root r :: _ => .ok (.root r)
  | .kindMetatable kind :: _ => .ok (.kindMetatable kind)
  | .index lookup key :: rest => return .index lookup (← search (pos + 1) rest) key
  | .upvalue n :: rest => return .upvalue (← search (pos + 1) rest) n
  | .metatable :: rest => return .metatable (← search (pos + 1) rest)
  | .userPayload :: rest => return .userPayload (← search (pos + 1) rest)
  | .indexObject lookup declared :: rest => do
    let base ← search (pos + 1) rest
    if base.size ≠ declared.toNat then
      .error (.baseSize pos declared base.size)
    else
      let key ← search (pos + 1 + base.size) (rest.drop base.size)
      return .indexObject lookup base key
termination_by steps => steps.length
decreasing_by
  all_goals first
    | exact Nat.lt_add_one _
    | exact Nat.lt_add_one_of_le (List.drop_sublist ..).length_le

end RemoteInspect.Tree
