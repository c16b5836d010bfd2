import RemoteInspect.Path.Defect
import RemoteInspect.Path.Step

/-!
Paths are laid out in preorder: a step, then its base, then its key. The size of a subpath is
checked for every step, from the last to the first, so that the subpaths of a step are known
before the step; an unchecked size is found by walking over bases by their declared sizes.
-/
namespace RemoteInspect.Path

abbrev Sizes := Array (Except Defect Nat)

/-- The size of the subpath `i` steps into those already checked, which are the last of `count`. -/
def Sizes.ahead (sizes : Sizes) (count i : Nat) : Except Defect Nat :=
  if i < sizes.size then sizes.getD (sizes.size - 1 - i) (.ok 0)
  else .error (.truncated (count - sizes.size + i))

/-- The base is checked before its declared size, and that before the key. -/
def sizeOfStep (count : Nat) (s : Step) (later : Sizes) : Except Defect Nat :=
  match s with
  | .indexObject _ declared => do
    let base ← later.ahead count 0
    if base ≠ declared.toNat then
      .error (.baseSize (count - 1 - later.size) declared base)
    else
      let key ← later.ahead count base
      return 1 + base + key
  | s => match s.shape with
    | .leaf => .ok 1
    | _ => return 1 + (← later.ahead count 0)

def sizes (count : Nat) (steps : List Step) : Sizes :=
  steps.foldr (fun s later => later.push (sizeOfStep count s later)) #[]

def checkedSize (steps : List Step) : Except Defect Nat :=
  (sizes steps.length steps).ahead steps.length 0

/-- Walks `skip` steps, then one subpath; `walked` counts the steps. There is none if the walk
runs past the end. -/
def walk : (skip walked : Nat) → List Step → Option Nat
  | _, _, [] => none
  | skip + 1, walked, _ :: rest => walk skip (walked + 1) rest
  | 0, walked, s :: rest => match s.shape with
    | .leaf => some (walked + 1)
    | .based => walk 0 (walked + 1) rest
    | .keyed baseSize => walk baseSize (walked + 1) rest

def sizeOf? (steps : List Step) : Option Nat :=
  walk 0 0 steps

end RemoteInspect.Path
