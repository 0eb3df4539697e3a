import TreePatch.Handle

/-! What can go wrong, and the message for each cause. -/

namespace TreePatch

inductive Error where
  /-- The forest holds no node of this name. -/
  | unknownNode (handle : Handle)
  /-- The second root was not built one generation after the first. -/
  | notSuccessive (previous current : Generation)
  /-- The save does not describe an earlier state of the forest. -/
  | staleSave (generation : Generation)
  /-- The claim log names a node that no longer stands. -/
  | danglingClaim (index : Nat)
  | outOfBounds (position size : Nat)
  /-- The boundary at the position has no counterpart. -/
  | unmatchedBoundary (position : Nat)
  /-- The document would hold nothing. -/
  | noContent
  /-- No node has the label. -/
  | unknownLabel (label : String)
  deriving DecidableEq, Repr

def Error.message : Error → String
  | .unknownNode handle =>
    "Node " ++ handle.describe ++ " has no stamp record: it was not constructed by this stamper " ++
      "or it was retained across a reset"
  | .notSuccessive previous current =>
    "Cannot reconcile generation " ++ toString previous ++ " with generation " ++
      toString current ++ ": the previous root must belong to the generation immediately " ++
      "preceding the current one"
  | .staleSave generation =>
    "Cannot roll back to a checkpoint of generation " ++ toString generation ++
      ": it was taken by another stamper, before a reset or in another generation"
  | .danglingClaim index => "The claim log names node " ++ toString index ++ ", which is gone"
  | .outOfBounds position size =>
    "Invalid patch: position " ++ toString position ++ " is outside of the document of size " ++
      toString size
  | .unmatchedBoundary position =>
    "Invalid patch: the document's boundaries no longer match around position " ++
      toString position
  | .noContent => "Invalid patch: the document would be left without any content"
  | .unknownLabel label => "No node is labelled " ++ label

end TreePatch
