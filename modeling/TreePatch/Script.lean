import TreePatch.Session
import TreePatch.Blueprint

/-! A parser that follows a script in place of reading a source. It notes the edits it is told
of, counts its parses and keeps its labels from one parse to the next. -/

namespace TreePatch

inductive Statement where
  | advance
  | clear
  | build (tree : Blueprint)
  deriving Repr

inductive Outcome where
  | root (ref : Ref)
  | failure (error : Error)
  deriving Repr

structure Script where
  statements : List Statement
  outcome : Outcome
  deriving Repr

structure Scripted where
  script : Script
  labels : Labels := []
  edits : List (Extent × String) := []
  parses : Nat := 0
  deriving Repr

namespace Scripted

/-- Runs statements up to the first error. -/
def run (plot : Plot) (labels : Labels) : List Statement → Option Error × Plot × Labels
  | [] => (none, plot, labels)
  | .advance :: rest => run (plot.put plot.forest.advance) labels rest
  | .clear :: rest => run plot.clear labels rest
  | .build tree :: rest =>
    match tree.build plot.forest labels with
    | (.ok _, f, labels) => run (plot.put f) labels rest
    | (.error e, f, labels) => (some e, plot.put f, labels)

def finish (plot : Plot) (labels : Labels) : Outcome → Except Error Handle
  | .root ref => ref.resolve plot.forest labels
  | .failure e => .error e

def edit (p : Scripted) (e : Extent) (text : String) : Scripted :=
  { p with edits := p.edits ++ [(e, text)] }

def parse (p : Scripted) (plot : Plot) : Except Error Handle × Scripted × Plot :=
  match run plot p.labels p.script.statements with
  | (some e, plot, labels) => (.error e, { p with labels, parses := p.parses + 1 }, plot)
  | (none, plot, labels) =>
    (finish plot labels p.script.outcome, { p with labels, parses := p.parses + 1 }, plot)

instance : Parser Scripted := ⟨edit, parse⟩

end Scripted
end TreePatch
