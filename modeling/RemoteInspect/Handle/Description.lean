import RemoteInspect.Handle.Basic

/-!
The text of a handle, written in one pass over its path. Each step writes what comes before its
subpaths and leaves what comes after them to be written when they end.
-/
namespace RemoteInspect.Handle

/-- Text that follows a subpath. With `more`, another subpath follows the text. -/
structure Seam where
  text : String
  more : Bool
deriving DecidableEq, Repr

structure Draft where
  text : String
  seams : List Seam

def Draft.close (text : String) : List Seam → Draft
  | [] => ⟨text, []⟩
  | ⟨t, true⟩ :: seams => ⟨text ++ t, seams⟩
  | ⟨t, false⟩ :: seams => close (text ++ t) seams

def Draft.write (pool : Pool) (d : Draft) : Step → Draft
  | .frameLocal frame slot => close (d.text ++ s!"(L {frame} {slot})") d.seams
  | .frameFunction frame => close (d.text ++ s!"(f {frame})") d.seams
  | .root .globals => close (d.text ++ "_G") d.seams
  | .root .registry => close (d.text ++ "_REGISTRY") d.seams
  | .root .mainThread => close (d.text ++ "_MAINTHREAD") d.seams
  | .kindMetatable kind => close (d.text ++ "(" ++ kind.name ++ " mt)") d.seams
  | .upvalue n => ⟨d.text, ⟨s!".u[{n}]", false⟩ :: d.seams⟩
  | .metatable => ⟨d.text ++ "(", ⟨" mt)", false⟩ :: d.seams⟩
  | .userPayload => ⟨d.text ++ "(", ⟨" uv)", false⟩ :: d.seams⟩
  | .index .get key => ⟨d.text, ⟨"." ++ (pool.constant key).text, false⟩ :: d.seams⟩
  | .index .next key =>
    ⟨d.text ++ "(next ", ⟨" " ++ (pool.constant key).text ++ ")", false⟩ :: d.seams⟩
  | .indexObject .get _ => ⟨d.text, ⟨"[", true⟩ :: ⟨"]", false⟩ :: d.seams⟩
  | .indexObject .next _ => ⟨d.text ++ "(next ", ⟨" ", true⟩ :: ⟨")", false⟩ :: d.seams⟩

def description (h : Handle) : String :=
  (h.path.steps.foldl (Draft.write h.pool) ⟨"", []⟩).text

end RemoteInspect.Handle
