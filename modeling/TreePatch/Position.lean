import TreePatch.Node
import TreePatch.Extent

/-! Where nodes stand in the rendered document. Position zero is just inside the root;
below it each boundary takes one position. -/

namespace TreePatch.Node

mutual

/-- The leaves of a node that starts at a position, with their extents. -/
def leavesFrom (position : Nat) : Node → List (Handle × Extent)
  | leaf tag _ => [(tag.handle, ⟨position, position + tag.span⟩)]
  | branch _ _ children => leavesAmong (position + 1) children

def leavesAmong (position : Nat) : List Node → List (Handle × Extent)
  | [] => []
  | n :: ns => leavesFrom position n ++ leavesAmong (position + n.span) ns

end

def leafExtents (root : Node) : List (Handle × Extent) :=
  match root with
  | leaf _ _ => leavesFrom 0 root
  | branch _ _ children => leavesAmong 0 children

mutual

/-- Where the first leaf or childless branch stands that is reached through nodes not built
before a generation. -/
def changeFrom (since : Generation) (position : Nat) : Node → Option Nat
  | leaf tag _ => if tag.born < since then none else some position
  | branch tag _ children =>
    if tag.born < since then none
    else if children.isEmpty then some position
    else changeAmong since (position + 1) children

def changeAmong (since : Generation) (position : Nat) : List Node → Option Nat
  | [] => none
  | n :: ns => (changeFrom since position n).orElse fun _ =>
      changeAmong since (position + n.span) ns

end

/-- The position before which all content is older than the root, if there is newer content. -/
def firstChange (root : Node) : Option Nat :=
  match root with
  | leaf _ _ => some 0
  | branch _ _ children => if children.isEmpty then some 0 else changeAmong root.born 0 children

end TreePatch.Node
