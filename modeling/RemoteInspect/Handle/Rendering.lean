import RemoteInspect.Handle.Basic
import RemoteInspect.Path.Node

/-!
The text of a handle, written by a loop over a stack of what is still to be written. A node writes
what comes before its subpaths at once, and leaves the rest on the stack.
-/
namespace RemoteInspect.Handle

open RemoteInspect.Path (Node)

inductive Piece
  | text (s : String)
  | node (n : Node)
deriving DecidableEq, Repr

/-- What a node writes at once and what it leaves, the next piece first. -/
abbrev Expansion := Except Fault (String × List Piece)

def aroundBase (n : Node) (before after : String) : Expansion := do
  return (before, [.node (← n.base), .text after])

def aroundBoth (n : Node) (before between after : String) : Expansion := do
  return (before, [.node (← n.base), .text between, .node (← n.key), .text after])

def expand (pool : Pool) (n : Node) : Expansion :=
  match n.step? with
  | none => .error .outOfRange
  | some (.frameLocal frame slot) => .ok (s!"(L {frame} {slot})", [])
  | some (.frameFunction frame) => .ok (s!"(f {frame})", [])
  | some (.root .globals) => .ok ("_G", [])
  | some (.root .registry) => .ok ("_REGISTRY", [])
  | some (.root .mainThread) => .ok ("_MAINTHREAD", [])
  | some (.kindMetatable kind) => .ok ("(" ++ kind.name ++ " mt)", [])
  | some (.upvalue index) => aroundBase n "" s!".u[{index}]"
  | some .metatable => aroundBase n "(" " mt)"
  | some .userPayload => aroundBase n "(" " uv)"
  | some (.index .get key) => aroundBase n "" ("." ++ (pool.constant key).text)
  | some (.index .next key) => aroundBase n "(next " (" " ++ (pool.constant key).text ++ ")")
  | some (.indexObject .get _) => aroundBoth n "" "[" "]"
  | some (.indexObject .next _) => aroundBoth n "(next " " " ")"

/-- A node weighs more than all that it leaves: its base and its key, which may share their steps,
and two texts. -/
def Piece.weight : Piece → Nat
  | text _ => 1
  | node n => Nat.pow 5 n.steps.length

def weigh : List Piece → Nat
  | [] => 0
  | p :: work => p.weight + weigh work

theorem weigh_append (left work : List Piece) : weigh (left ++ work) = weigh left + weigh work := by
  induction left with
  | nil => exact (Nat.zero_add _).symm
  | cons p left ih => rw [List.cons_append, weigh, weigh, ih, Nat.add_assoc]

theorem weight_of_length_lt {n m : Node} (h : m.steps.length < n.steps.length) :
    5 * (Piece.node m).weight ≤ (Piece.node n).weight :=
  calc 5 * Nat.pow 5 m.steps.length
    _ = Nat.pow 5 (m.steps.length + 1) := Nat.pow_succ'.symm
    _ ≤ Nat.pow 5 n.steps.length := Nat.pow_le_pow_right (by decide) h

theorem weight_pos (p : Piece) : 0 < p.weight := by
  cases p with
  | text s => exact Nat.one_pos
  | node n => exact Nat.pow_pos (by decide)

theorem weigh_aroundBase {n : Node} {before after s : String} {left : List Piece}
    (h : aroundBase n before after = .ok (s, left)) : weigh left < (Piece.node n).weight := by
  cases hb : n.base with
  | error f =>
    rw [aroundBase, hb] at h
    cases h
  | ok base =>
    rw [aroundBase, hb] at h
    cases h
    have hbase := weight_of_length_lt (Node.length_base hb)
    have hpos := weight_pos (.node base)
    have hleft : weigh [.node base, .text after] = (Piece.node base).weight + (1 + 0) := rfl
    omega

theorem weigh_aroundBoth {n : Node} {before between after s : String} {left : List Piece}
    (h : aroundBoth n before between after = .ok (s, left)) :
    weigh left < (Piece.node n).weight := by
  cases hb : n.base with
  | error f =>
    rw [aroundBoth, hb] at h
    cases h
  | ok base =>
    cases hk : n.key with
    | error f =>
      rw [aroundBoth, hb, hk] at h
      cases h
    | ok key =>
      rw [aroundBoth, hb, hk] at h
      cases h
      have hbase := weight_of_length_lt (Node.length_base hb)
      have hkey := weight_of_length_lt (Node.length_key hk)
      have hpos := weight_pos (.node base)
      have hleft : weigh [.node base, .text between, .node key, .text after] =
        (Piece.node base).weight + (1 + ((Piece.node key).weight + (1 + 0))) := rfl
      omega

theorem weigh_expand {pool : Pool} {n : Node} {s : String} {left : List Piece}
    (h : expand pool n = .ok (s, left)) : weigh left < (Piece.node n).weight := by
  rw [expand.eq_def] at h
  split at h
  case h_1 => cases h
  all_goals first
    | exact weigh_aroundBase h
    | exact weigh_aroundBoth h
    | (cases h; exact weight_pos _)

def write (pool : Pool) (out : String) : List Piece → Except Fault String
  | [] => .ok out
  | .text s :: work => write pool (out ++ s) work
  | .node n :: work =>
    match h : expand pool n with
    | .error f => .error f
    | .ok (s, left) =>
      have := weigh_expand h
      write pool (out ++ s) (left ++ work)
termination_by work => weigh work
decreasing_by
  · exact Nat.lt_add_of_pos_left Nat.one_pos
  · rw [weigh_append]
    exact Nat.add_lt_add_right this _

def render (h : Handle) : Except Fault String :=
  write h.pool "" [.node h.path.root]

end RemoteInspect.Handle
