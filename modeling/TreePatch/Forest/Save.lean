import TreePatch.Forest.Basic

/-! Going back to an earlier state of the same generation. Nodes are dropped from the end and
claims are undone latest first. -/

namespace TreePatch

/-- What tells an earlier state of a forest apart. -/
structure Save where
  arena : Nat
  generation : Generation
  nodes : Nat
  claims : Nat
  deriving DecidableEq, Repr

namespace Forest

def save (f : Forest) : Save := ⟨f.arena, f.generation, f.size, f.log.length⟩

/-- Whether the save is of another arena or generation, or ahead of the forest. -/
def isStale (f : Forest) (s : Save) : Bool :=
  s.arena != f.arena || s.generation != f.generation || f.size < s.nodes || f.log.length < s.claims

/-- Takes claims back, latest first. -/
def undo (entries : Array Entry) : List (Nat × Generation) → Except Error (Array Entry)
  | [] => .ok entries
  | (index, previous) :: older =>
    if index < entries.size then
      undo (entries.modify index fun s => { s with claimed := previous }) older
    else .error (.danglingClaim index)

def restore (f : Forest) (s : Save) : Except Error Forest :=
  if f.isStale s then .error (.staleSave s.generation)
  else do
    let recent := f.log.length - s.claims
    let entries ← undo f.entries (f.log.take recent)
    return { f with entries := entries.take s.nodes, log := f.log.drop recent }

end Forest
end TreePatch
