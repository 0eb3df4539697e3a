import TreePatch.Node
import TreePatch.Error
import TreePatch.Settings

/-! A forest holds every node built since it was last cleared, by index, and for each the
generation that last put it below a branch. A branch takes its children from the
forest, so the nodes of earlier generations can stand in later trees. -/

namespace TreePatch

structure Entry where
  node : Node
  /-- Generation of the latest branch with the node as a child, its own if there is none. -/
  claimed : Generation
  deriving Repr

structure Forest where
  arena : Nat
  settings : Settings := {}
  generation : Generation := 0
  entries : Array Entry := #[]
  /-- The claims of this generation with what each replaced, latest first. -/
  log : List (Nat × Generation) := []
  deriving Repr

/-- The generations recorded of a node. -/
structure Stamp where
  born : Generation
  childBorn : Generation
  claimed : Generation
  oldest : Generation
  deriving DecidableEq, Repr

namespace Forest

def size (f : Forest) : Nat := f.entries.size

def isEmpty (f : Forest) : Bool := f.entries.isEmpty

/-- The name an index has in this forest, whether or not there is such a node. -/
def handleAt (f : Forest) (index : Nat) : Handle := ⟨f.arena, index⟩

/-- The name the next node will have. -/
def nextHandle (f : Forest) : Handle := f.handleAt f.size

def find? (f : Forest) (h : Handle) : Option Entry :=
  if h.arena = f.arena then f.entries[h.index]? else none

def entry (f : Forest) (h : Handle) : Except Error Entry :=
  match f.find? h with
  | some s => .ok s
  | none => .error (.unknownNode h)

def node (f : Forest) (h : Handle) : Except Error Node := (f.entry h).map Entry.node

def nodes (f : Forest) : List Handle → Except Error (List Node)
  | [] => .ok []
  | h :: hs => do
    let n ← f.node h
    let ns ← f.nodes hs
    return n :: ns

def stamp (f : Forest) (h : Handle) : Except Error Stamp :=
  (f.entry h).map fun s => ⟨s.node.born, s.node.tag.childBorn, s.claimed, s.node.oldest⟩

/-- Generation of the latest branch that has the node as a child. -/
def claimedAt (f : Forest) (h : Handle) : Generation :=
  match f.find? h with
  | some s => s.claimed
  | none => 0

/-- Puts a node after the others; it counts as claimed by its own generation. -/
def add (f : Forest) (n : Node) : Forest :=
  { f with entries := f.entries.push ⟨n, n.born⟩ }

def leafTag (f : Forest) (text : String) : Tag :=
  ⟨f.nextHandle, Text.units text, f.generation, f.generation, f.generation⟩

def leaf (f : Forest) (text : String) : Handle × Forest :=
  (f.nextHandle, f.add (.leaf (f.leafTag text) text))

/-- Notes that a branch of this generation has the node as a child. -/
def claim (f : Forest) (index : Nat) : Forest :=
  match f.entries[index]? with
  | none => f
  | some s =>
    { f with
      entries := f.entries.modify index fun s => { s with claimed := f.generation }
      log := (index, s.claimed) :: f.log }

def claimAll (f : Forest) (indices : List Nat) : Forest := indices.foldl claim f

/-- The span is the number of positions, of which a word may keep a part only (`Node.word`). -/
def branchTag (f : Forest) (children : List Node) : Tag where
  handle := f.nextHandle
  span := 2 + Node.spanAmong children
  born := f.generation
  childBorn := (children.map Node.born).min?.getD f.generation
  oldest := (children.map Node.oldest).foldl min f.generation

/-- Puts nodes of the forest below a new branch and claims them in order. -/
def join (f : Forest) (kind : String) (below : List Node) : Handle × Forest :=
  let tag := f.branchTag below
  (tag.handle, (f.claimAll (below.map (·.handle.index))).add (.branch tag kind below))

/-- Builds a branch of the children named. The error names the first that is not in the forest,
and nothing is claimed then. -/
def branch (f : Forest) (kind : String) (children : List Handle) :
    Except Error (Handle × Forest) :=
  match f.nodes children with
  | .ok below => .ok (f.join kind below)
  | .error e => .error e

def build (f : Forest) : Layer → Except Error (Handle × Forest)
  | .leaf text => .ok (f.leaf text)
  | .branch kind children => f.branch kind children

def advance (f : Forest) : Forest := { f with generation := f.generation + 1, log := [] }

/-- Advances several times at once. -/
def advanceBy (f : Forest) : Nat → Forest
  | 0 => f
  | n + 1 => { f with generation := f.generation + (n + 1), log := [] }

/-- Forgets every node and starts again in a fresh arena. -/
def clear (f : Forest) (arena : Nat) : Forest := { arena, settings := f.settings }

theorem advanceBy_succ (f : Forest) (n : Nat) : f.advanceBy (n + 1) = (f.advanceBy n).advance := by
  cases n <;> simp [advanceBy, advance, Nat.add_assoc]

theorem node_eq_ok_iff (f : Forest) (h : Handle) (n : Node) :
    f.node h = .ok n ↔ ∃ e, f.find? h = some e ∧ e.node = n := by
  unfold node entry
  split <;> simp_all [Except.map]

theorem node_eq_error_iff (f : Forest) (h : Handle) (e : Error) :
    f.node h = .error e ↔ f.find? h = none ∧ e = .unknownNode h := by
  unfold node entry
  cases f.find? h <;> simp [Except.map, eq_comm]

/-- A handle of another arena names nothing here. -/
theorem find?_eq_none_of_arena_ne (f : Forest) (h : Handle) (ha : h.arena ≠ f.arena) :
    f.find? h = none := by
  simp [find?, ha]

@[simp] theorem size_add (f : Forest) (n : Node) : (f.add n).size = f.size + 1 := by
  simp [add, size]

@[simp] theorem arena_add (f : Forest) (n : Node) : (f.add n).arena = f.arena := rfl

@[simp] theorem size_claim (f : Forest) (i : Nat) : (f.claim i).size = f.size := by
  unfold claim
  split <;> simp [size]

@[simp] theorem arena_claim (f : Forest) (i : Nat) : (f.claim i).arena = f.arena := by
  unfold claim
  split <;> rfl

@[simp] theorem generation_claim (f : Forest) (i : Nat) :
    (f.claim i).generation = f.generation := by
  unfold claim
  split <;> rfl

@[simp] theorem size_claimAll (f : Forest) (is : List Nat) : (f.claimAll is).size = f.size := by
  induction is generalizing f with
  | nil => rfl
  | cons i is ih => exact (ih (f.claim i)).trans (size_claim f i)

@[simp] theorem arena_claimAll (f : Forest) (is : List Nat) : (f.claimAll is).arena = f.arena := by
  induction is generalizing f with
  | nil => rfl
  | cons i is ih => exact (ih (f.claim i)).trans (arena_claim f i)

@[simp] theorem generation_claimAll (f : Forest) (is : List Nat) :
    (f.claimAll is).generation = f.generation := by
  induction is generalizing f with
  | nil => rfl
  | cons i is ih => exact (ih (f.claim i)).trans (generation_claim f i)

/-- Claims leave the nodes themselves alone. -/
theorem node_claim (f : Forest) (i j : Nat) :
    (f.claim i).entries[j]?.map Entry.node = f.entries[j]?.map Entry.node := by
  unfold claim
  split
  · rfl
  · simp only [Array.getElem?_modify]
    split
    · simp [Function.comp_def]
    · rfl

end Forest
end TreePatch
