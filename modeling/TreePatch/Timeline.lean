import TreePatch.Patch

/-! Roots of successive generations, oldest first. A patch needs the two latest only. -/

namespace TreePatch

structure Timeline where
  roots : List Handle := []
  deriving DecidableEq, Repr

namespace Timeline

def latest (t : Timeline) : Option Handle := t.roots.getLast?

def previous (t : Timeline) : Option Handle := t.roots.dropLast.getLast?

/-- Records a root one generation after the latest. -/
def push (t : Timeline) (f : Forest) (root : Handle) : Except Error Timeline := do
  let new ← f.node root
  match t.latest with
  | none => return ⟨[root]⟩
  | some latest =>
    let old ← f.node latest
    if new.born = old.born + 1 then return ⟨t.roots ++ [root]⟩
    else throw (.notSuccessive old.born new.born)

/-- Leads to the latest root from the one before it, or from a new surface. -/
def latestPatch (t : Timeline) (f : Forest) : Except Error Patch :=
  match t.previous, t.latest with
  | some previous, some latest => Patch.between f previous latest
  | none, some latest => Patch.populate f latest
  | _, none => .ok []

/-- Drops all but the latest `count` roots. -/
def keepLatest (t : Timeline) (count : Nat) : Timeline :=
  ⟨t.roots.drop (t.roots.length - count)⟩

end Timeline
end TreePatch
