import TreePatch.Forest.Basic
import TreePatch.Render
import TreePatch.Removal
import TreePatch.Addition
import TreePatch.Settle

/-! Patches from trees. Removals come last to first, so none shifts another; additions follow
first to last, at positions of the new document. -/

namespace TreePatch

namespace Forest

/-- Content of an old root that nothing newer has claimed. -/
def removals (f : Forest) (root : Handle) : Except Error (List Removal) := do
  let n ← f.node root
  return Removal.ofSegments f.settings 0 (surveyOld f.claimedAt (fun _ => false) n)

/-- Content of a root that was built with it. -/
def additions (f : Forest) (root : Handle) : Except Error (List Extent) := do
  let n ← f.node root
  return Addition.ofSegments none 0 (surveyNew (fun _ => false) n)

end Forest

namespace Patch

/-- Inserts the content of the new document at each extent. -/
def insertions (content : Fragment) : List Extent → Except Error Patch
  | [] => .ok []
  | e :: es => do
    let inside ← content.slice e
    let later ← insertions content es
    return .insert e.start inside :: later

/-- What fills a document about to lose all content, and the additions still to make. The first
addition is taken if it is the whole new document or a placeholder at its start. -/
def filling (settings : Settings) (content : Fragment) (additions : List Extent) :
    Except Error (Fragment × List Extent) :=
  let placeholder := Fragment.bareBranch settings.placeholderKind
  match additions with
  | first :: rest =>
    if first.start = 0 then do
      let leading ← content.slice first
      if first.stop = content.size ∨ leading = placeholder then return (leading, rest)
      else return (placeholder, additions)
    else .ok (placeholder, additions)
  | [] => .ok (placeholder, additions)

/-- Deletions last to first. The replacement goes with a deletion of the whole. -/
def deletions (whole : Extent) (replacement : Fragment) (removals : List Removal) : Patch :=
  removals.reverse.map fun r =>
    .delete r.extent.start r.extent.stop (if r.extent = whole then some replacement else none)

def assemble (settings : Settings) (oldSize : Nat) (content : Fragment)
    (removals : List Removal) (additions : List Extent) : Except Error Patch := do
  let whole : Extent := ⟨0, oldSize⟩
  if removals.any (·.extent = whole) then
    let (replacement, additions) ← filling settings content additions
    return deletions whole replacement removals ++ (← insertions content additions)
  else return deletions whole .empty removals ++ (← insertions content additions)

/-- Leads from the rendering of a root to that of a root one generation later. -/
def between (f : Forest) (previous current : Handle) : Except Error Patch := do
  let old ← f.node previous
  let new ← f.node current
  if new.born ≠ old.born + 1 then throw (.notSuccessive old.born new.born)
  let settled := settle f.claimedAt old new
  assemble f.settings old.innerSpan new.content
    (Removal.ofSegments f.settings 0 settled.old) (Addition.ofSegments none 0 settled.new)

/-- Leads from a new surface to the rendering of a root. -/
def populate (f : Forest) (root : Handle) : Except Error Patch := do
  let n ← f.node root
  let placeholder := Fragment.bareBranch f.settings.placeholderKind
  if n.content.isEmpty ∨ n.content = placeholder then return []
  else return [.delete 0 placeholder.size (some n.content)]

end Patch
end TreePatch
