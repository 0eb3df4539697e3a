import Mathlib.Data.Nat.PSub
import TreePatch.Proofs.LineExtents

/-! Edits of a source with every check its arithmetic and its cuts call for. A text can be edited
at an extent if these pass (`edited_iff`), and then so do those of the blocks (`edit?_eq`). -/

namespace TreePatch

namespace Text

/-- The characters before a byte and those after it, if there is a boundary between them. -/
def cutBytes? : Nat → List Char → Option (List Char × List Char)
  | 0, cs => some ([], cs)
  | _ + 1, [] => none
  | n + 1, c :: cs =>
    if c.utf8Size ≤ n + 1 then
      (cutBytes? (n + 1 - c.utf8Size) cs).map fun parts => (c :: parts.1, parts.2)
    else none

/-- Fails on a reversed extent and inside a character. -/
def spliceBytes? (cs : List Char) (e : Extent) (inserted : List Char) : Option (List Char) := do
  let _ ← Nat.psub e.stop e.start
  let head ← cutBytes? e.start cs
  let tail ← cutBytes? e.stop cs
  return head.1 ++ inserted ++ tail.2

theorem cutBytes?_eq_some_iff {n : Nat} {cs before after : List Char} :
    cutBytes? n cs = some (before, after) ↔ cs = before ++ after ∧ bytesOf before = n := by
  induction cs generalizing n before with
  | nil => cases n <;> cases before <;> simp [cutBytes?, bytesOf_cons, eq_comm]
  | cons c cs ih =>
    cases n with
    | zero =>
      rw [cutBytes?, bytesOf_eq_zero, Option.some.injEq, Prod.mk.injEq]
      constructor
      · rintro ⟨rfl, rfl⟩
        exact ⟨rfl, rfl⟩
      · rintro ⟨hcs, rfl⟩
        exact ⟨rfl, hcs⟩
    | succ n =>
      rw [cutBytes?]
      constructor
      · intro h
        split at h
        · rename_i hfits
          obtain ⟨parts, hparts, hsplit⟩ := Option.map_eq_some_iff.mp h
          obtain ⟨rfl, rfl⟩ := Prod.mk.inj hsplit
          obtain ⟨rfl, hbytes⟩ := ih.mp hparts
          refine ⟨rfl, ?_⟩
          rw [bytesOf_cons, hbytes]
          omega
        · cases h
      · rintro ⟨hcs, hbytes⟩
        cases before with
        | nil => cases hbytes
        | cons d before =>
          obtain ⟨rfl, rfl⟩ := List.cons.inj hcs
          rw [bytesOf_cons] at hbytes
          have hrest : bytesOf before = n + 1 - c.utf8Size := by omega
          rw [if_pos (by omega), ih.mpr ⟨rfl, hrest⟩]
          rfl

/-- The edits of a text are those that pass the checks. -/
theorem edited_iff {cs inserted cs' : List Char} {e : Extent} :
    Edited cs e inserted cs' ↔ spliceBytes? cs e inserted = some cs' := by
  constructor
  · intro h
    obtain ⟨before, removed, after⟩ := h
    have hstart : cutBytes? (bytesOf before) (before ++ removed ++ after) =
        some (before, removed ++ after) :=
      cutBytes?_eq_some_iff.mpr ⟨List.append_assoc _ _ _, rfl⟩
    have hstop : cutBytes? (bytesOf (before ++ removed)) (before ++ removed ++ after) =
        some (before ++ removed, after) := cutBytes?_eq_some_iff.mpr ⟨rfl, rfl⟩
    have hle : bytesOf before ≤ bytesOf (before ++ removed) := by
      rw [bytesOf_append]
      exact Nat.le_add_right _ _
    simp only [spliceBytes?, Nat.psub_eq_sub hle, hstart, hstop]
    rfl
  · intro h
    obtain ⟨start, stop⟩ := e
    simp only [spliceBytes?, Option.bind_eq_bind, Option.bind_eq_some_iff] at h
    obtain ⟨removed, hremoved, ⟨before, rest⟩, hstart, ⟨kept, after⟩, hstop, hresult⟩ := h
    obtain ⟨rfl, rfl⟩ := cutBytes?_eq_some_iff.mp hstart
    obtain ⟨hcs, rfl⟩ := cutBytes?_eq_some_iff.mp hstop
    obtain rfl := Option.some.inj hresult
    have hle := Nat.psub_eq_some.mp hremoved
    rcases List.append_eq_append_iff.mp hcs with ⟨part, rfl, rfl⟩ | ⟨part, rfl, rfl⟩
    · rw [← List.append_assoc]
      exact .mk before part after inserted
    · have hnone : part = [] := by
        rw [bytesOf_append] at hle
        exact bytesOf_eq_zero.mp (by omega)
      subst hnone
      have := Edited.mk kept [] rest inserted
      simpa using this

end Text

namespace Blocks

open Text

def keepApart? (e : Extent) (removed added : Nat) (b : Block) : Option (Option Block) :=
  if b.extent.stop < e.start then some (some b)
  else if e.stop < b.extent.start then do
    let start ← Nat.psub b.extent.start removed
    let stop ← Nat.psub b.extent.stop removed
    return some { b with extent := ⟨start + added, stop + added⟩ }
  else some none

/-- Fails where a number would fall below zero or the source cannot be cut. -/
def edit? (p : Blocks) (e : Extent) (text : String) : Option Blocks := do
  let removed ← Nat.psub e.stop e.start
  let kept ← p.blocks.mapM (keepApart? e removed (bytesOf text.toList))
  let source ← spliceBytes? p.source.toList e text.toList
  return { source := String.ofList source, blocks := kept.filterMap id }

theorem keepApart?_eq {e : Extent} {b : Block} (added : Nat)
    (hb : b.extent.start ≤ b.extent.stop) :
    keepApart? e e.length added b = some (keepApart e added b) := by
  unfold keepApart? keepApart
  split
  · rfl
  · split
    · rename_i hbehind
      have hstart : e.length ≤ b.extent.start := Extent.length_le hbehind
      rw [Nat.psub_eq_sub hstart, Nat.psub_eq_sub (Nat.le_trans hstart hb)]
      rfl
    · rfl

theorem mapM_keepApart? {e : Extent} (added : Nat) {blocks : List Block}
    (h : ∀ b ∈ blocks, b.extent.start ≤ b.extent.stop) :
    blocks.mapM (keepApart? e e.length added) = some (blocks.map (keepApart e added)) := by
  induction blocks with
  | nil => rfl
  | cons b blocks ih =>
    rw [List.forall_mem_cons] at h
    rw [List.mapM_cons, keepApart?_eq added h.1, ih h.2]
    rfl

/-- An edit between characters passes its checks. -/
theorem edit?_eq {p : Blocks} {e : Extent} {text : String} {cs : List Char}
    (h : Edited p.source.toList e text.toList cs)
    (hb : ∀ b ∈ p.blocks, b.extent.start ≤ b.extent.stop) :
    p.edit? e text = some (Parser.edit p e text) := by
  have hedit : Parser.edit p e text =
      ⟨String.ofList cs, p.blocks.filterMap (keepApart e (bytesOf text.toList))⟩ := by
    rw [← h.splice]
    rfl
  rw [edit?, Nat.psub_eq_sub h.le, ← Extent.length]
  rw [hedit]
  simp only [Option.bind_eq_bind, Option.bind_some, mapM_keepApart? _ hb, edited_iff.mp h,
    List.filterMap_map]
  rfl

end Blocks
end TreePatch
