import TreePatch.Forest.Save

/-! Forests side by side. Arena numbers come from one counter, so no two forests, and no two
lives of one forest, ever share one. -/

namespace TreePatch

structure Workspace where
  forests : Array Forest := #[]
  /-- The next arena number. -/
  spare : Nat := 0
  deriving Repr

namespace Workspace

def found (w : Workspace) (settings : Settings) : Workspace :=
  ⟨w.forests.push { arena := w.spare, settings }, w.spare + 1⟩

def put (w : Workspace) (i : Nat) (f : Forest) : Workspace :=
  { w with forests := w.forests.setIfInBounds i f }

/-- Clears one forest. -/
def clear (w : Workspace) (i : Nat) : Workspace :=
  ⟨w.forests.modify i fun f => f.clear w.spare, w.spare + 1⟩

end Workspace

/-- One forest with the counter of arena numbers. -/
structure Plot where
  forest : Forest
  spare : Nat
  deriving Repr

namespace Plot

def new (settings : Settings) : Plot := ⟨{ arena := 0, settings }, 1⟩

def clear (p : Plot) : Plot := ⟨p.forest.clear p.spare, p.spare + 1⟩

def put (p : Plot) (f : Forest) : Plot := { p with forest := f }

end Plot
end TreePatch
