import TreePatch.Survey
import TreePatch.Extent
import TreePatch.Settings

/-! What is to be removed from an old document: its changed segments, joined where they
touch. -/

namespace TreePatch

structure Removal where
  extent : Extent
  /-- Kind of the branch the removal began with, or the kind given to leaves. -/
  kind : String
  deriving DecidableEq, Repr

namespace Removal

def describe (r : Removal) : String := r.extent.describe ++ " (" ++ r.kind ++ ")"

/-- Puts a removal in front, joining it with the next if that starts where it stops. -/
def joinFront (r : Removal) : List Removal → List Removal
  | next :: rest =>
    if r.extent.stop = next.extent.start then
      { r with extent := ⟨r.extent.start, next.extent.stop⟩ } :: rest
    else r :: next :: rest
  | [] => [r]

def kindOf (settings : Settings) : Node → String
  | .leaf _ _ => settings.leafKind
  | .branch _ kind _ => kind

/-- The removals of segments that start at a position. What has no width needs none. -/
def ofSegments (settings : Settings) : Nat → List Segment → List Removal
  | _, [] => []
  | position, .changed n :: rest =>
    let later := ofSegments settings (position + n.span) rest
    if n.span = 0 then later
    else joinFront ⟨⟨position, position + n.span⟩, kindOf settings n⟩ later
  | position, s :: rest => ofSegments settings (position + s.width) rest

end Removal
end TreePatch
