import TreePatch.Patch
import TreePatch.Position
import TreePatch.Workspace
import TreePatch.Json.Codec
import TreePatch.Json.Printer

/-! A forest behind plain numbers: nodes by index, steps as flat records with their content as
JSON text. -/

namespace TreePatch

structure FlatStep where
  isDelete : Bool
  start : Nat
  /-- The start again for an insertion. -/
  stop : Nat
  content : Option String
  deriving DecidableEq, Repr

def Step.flatten : Step → FlatStep
  | delete start stop replacement =>
    ⟨true, start, stop, replacement.map fun f => f.toJson.render⟩
  | insert position content => ⟨false, position, position, some content.toJson.render⟩

structure Board where
  plot : Plot
  deriving Repr

namespace Board

def new (settings : Settings) : Board := ⟨.new settings⟩

/-- The handle of an index that has a node. -/
def handle (b : Board) (index : Nat) : Except Error Handle := do
  let h := b.plot.forest.handleAt index
  let _ ← b.plot.forest.node h
  return h

def handles (b : Board) : List Nat → Except Error (List Handle)
  | [] => .ok []
  | i :: is => do
    let h ← b.handle i
    let hs ← b.handles is
    return h :: hs

def generation (b : Board) : Generation := b.plot.forest.generation

def advance (b : Board) : Board := ⟨b.plot.put b.plot.forest.advance⟩

def clear (b : Board) : Board := ⟨b.plot.clear⟩

def leaf (b : Board) (text : String) : Nat × Board :=
  let (h, f) := b.plot.forest.leaf text
  (h.index, ⟨b.plot.put f⟩)

def branch (b : Board) (kind : String) (children : List Nat) : Except Error (Nat × Board) := do
  let hs ← b.handles children
  let (h, f) ← b.plot.forest.branch kind hs
  return (h.index, ⟨b.plot.put f⟩)

/-- The number handed out for an index, if the index is small enough to have one. -/
def number? (index : Nat) : Option Nat := if index < 4294967296 then some index else none

def between (b : Board) (previous current : Nat) : Except Error (List FlatStep) := do
  let old ← b.handle previous
  let new ← b.handle current
  let patch ← Patch.between b.plot.forest old new
  return patch.map Step.flatten

def populate (b : Board) (root : Nat) : Except Error (List FlatStep) := do
  let h ← b.handle root
  let patch ← Patch.populate b.plot.forest h
  return patch.map Step.flatten

def firstChange (b : Board) (root : Nat) : Except Error (Option Nat) := do
  let n ← b.plot.forest.node (b.plot.forest.handleAt root)
  return n.firstChange

end Board
end TreePatch
