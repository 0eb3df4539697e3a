import TreePatch.Survey
import TreePatch.Extent

/-! What is to be added to reach a new document: each run of changed segments with nothing
else between them. -/

namespace TreePatch.Addition

/-- The extent from where a run began, unless it has no width. -/
def close (began : Option Nat) (stop : Nat) : List Extent :=
  match began with
  | some start => if start < stop then [⟨start, stop⟩] else []
  | none => []

/-- The additions of segments that start at a position, inside a run that may have begun. -/
def ofSegments : Option Nat → Nat → List Segment → List Extent
  | began, position, [] => close began position
  | began, position, .changed n :: rest =>
    ofSegments (some (began.getD position)) (position + n.span) rest
  | began, position, s :: rest =>
    close began position ++ ofSegments none (position + s.width) rest

end TreePatch.Addition
