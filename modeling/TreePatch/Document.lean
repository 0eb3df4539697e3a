import TreePatch.Fragment.Cut
import TreePatch.Fragment.Balance
import TreePatch.Settings
import TreePatch.Step

/-! A document as an editing surface holds it: never empty and with every boundary
matched. A step that would break either rule is refused. -/

namespace TreePatch

structure Document where
  content : Fragment
  inhabited : content.isEmpty = false
  matched : content.firstUnmatched = none
  deriving DecidableEq

namespace Document

def ofFragment (f : Fragment) : Except Error Document :=
  if h : f.isEmpty then .error .noContent
  else match hm : f.firstUnmatched with
    | some position => .error (.unmatchedBoundary position)
    | none => .ok ⟨f, by simpa using h, hm⟩

/-- What a new surface holds: one childless branch. -/
def placeholder (settings : Settings) : Document :=
  ⟨.bareBranch settings.placeholderKind, rfl, by
    simp [Fragment.firstUnmatched, Fragment.bareBranch, unmatchedFrom]⟩

def size (d : Document) : Nat := d.content.size

def slice (d : Document) (e : Extent) : Except Error Fragment := d.content.slice e

def describe (d : Document) : String := d.content.describe

/-- Puts `content` in place of the `removed` positions after `start`. -/
def splice (d : Document) (start removed : Nat) (content : Fragment) : Except Error Document := do
  let (before, rest) ← d.content.cutAt start
  match rest.cutAt removed with
  | .error _ => throw (.outOfBounds (start + removed) d.size)
  | .ok (_, after) => ofFragment (before ++ content ++ after)

def apply (d : Document) : Step → Except Error Document
  | .delete start stop replacement =>
    if stop < start then .error (.outOfBounds start d.size)
    else d.splice start (stop - start) (replacement.getD .empty)
  | .insert position content => d.splice position 0 content

/-- The document after the longest run of steps that succeed, with the error that ended it. -/
def applyPatch (d : Document) : Patch → Document × Option Error
  | [] => (d, none)
  | step :: steps => match d.apply step with
    | .ok next => next.applyPatch steps
    | .error e => (d, some e)

end Document
end TreePatch
