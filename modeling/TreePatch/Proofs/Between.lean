import TreePatch.Proofs.Assembly
import TreePatch.Proofs.Nesting
import TreePatch.Proofs.Sound

/-! The patch between two roots of a sound forest. Settled rows have one scaffold, so they have
one remnant, and the patch leads from the rendering of the old root to that of the new one with
what is left over (`takes_between`). Only an old branch that is itself kept does not fit in. -/

namespace TreePatch

open Segment Scaffold

/-- The tokens a piece stands for in a forest. -/
def Piece.tokens (f : Forest) : Piece → List Token
  | .opening kind => [.opening kind]
  | .closing kind => [.closing kind]
  | .kept h => match f.node h with
    | .ok n => n.tokens
    | .error _ => []

/-- What a scaffold renders to in a forest. -/
def Scaffold.rendering (f : Forest) (s : Scaffold) : Fragment :=
  .ofTokens (s.flatMap (Piece.tokens f))

/-- **A remnant can be told from the scaffold** if the forest holds what is kept. -/
theorem remnant_eq_scaffold {f : Forest} {segments : List Segment}
    (h : ∀ n, Segment.kept n ∈ segments → f.node n.handle = .ok n) :
    remnant segments = Scaffold.rendering f (ofSegments segments) := by
  suffices ht : (segments.filter fun s => !s.isChanged).flatMap Segment.tokens =
      (ofSegments segments).flatMap (Piece.tokens f) from congrArg Fragment.ofTokens ht
  induction segments with
  | nil => rfl
  | cons s ss ih =>
    have hss := ih fun n hn => h n (List.mem_cons_of_mem _ hn)
    cases s with
    | opening kind => simpa [ofSegments, isChanged, piece?, Segment.tokens, Piece.tokens] using hss
    | closing kind => simpa [ofSegments, isChanged, piece?, Segment.tokens, Piece.tokens] using hss
    | changed n => exact hss
    | kept n =>
      have hn := h n List.mem_cons_self
      simpa [ofSegments, isChanged, piece?, Segment.tokens, Piece.tokens, hn] using hss

theorem Node.size_content {root : Node} (h : root.Sized) : root.content.size = root.innerSpan := by
  cases root with
  | leaf tag text =>
    simpa [Node.content, Node.contentTokens, Node.innerSpan, Node.Sized, Node.span, Node.tag,
      Node.tokens, eq_comm] using h
  | branch tag kind children =>
    simp only [Node.Sized, Node.span, Node.tag, Node.tokens, List.cons_append,
      Token.listWidth_append, Token.listWidth_cons, Token.listWidth_nil, Token.width] at h
    rw [Node.content, Fragment.size_ofTokens, Node.contentTokens_branch, Node.innerSpan]
    omega

namespace Forest

variable {f : Forest} {p c : Handle} {old new : Node}

/-- The rows a patch is read from. -/
def settled (f : Forest) (old new : Node) : Settlement := settle f.claimedAt old new

/-- The old root is a branch and is kept as a whole, with its boundaries. -/
def RootKept (f : Forest) (old new : Node) : Prop :=
  old.layer.isLeaf = false ∧
    (Sieve.standing old f.claimedAt (f.settled old new).uprooted.contains).keeps old = true

theorem old_settled (f : Forest) (old new : Node) :
    (f.settled old new).old =
      surveyRoot (.standing old f.claimedAt (f.settled old new).uprooted.contains) old :=
  (settleFrom_spec f.claimedAt old new ∅).1

theorem new_settled (f : Forest) (old new : Node) :
    (f.settled old new).new =
      surveyRoot (.reused new (f.settled old new).uprooted.contains) new :=
  (settleFrom_spec f.claimedAt old new ∅).2.1

theorem kept_old_settled {n : Node} (h : Segment.kept n ∈ (f.settled old new).old) :
    n ∈ old.nodes :=
  node_mem_surveyRoot _ _ _ _ (old_settled f old new ▸ h) rfl

theorem kept_new_settled {n : Node} (h : Segment.kept n ∈ (f.settled old new).new) :
    n ∈ new.nodes :=
  node_mem_surveyRoot _ _ _ _ (new_settled f old new ▸ h) rfl

theorem Sound.sized_old (hf : f.Sound) (hp : f.node p = .ok old) :
    ∀ s ∈ (f.settled old new).old, s.Sized := by
  rw [old_settled]
  exact sized_surveyRoot _ (hf.sized hp)

theorem Sound.sized_new (hf : f.Sound) (hc : f.node c = .ok new) :
    ∀ s ∈ (f.settled old new).new, s.Sized := by
  rw [new_settled]
  exact sized_surveyRoot _ (hf.sized hc)

/-- What settled rows keep is the same in both. -/
theorem Sound.remnant_settled (hf : f.Sound) (hp : f.node p = .ok old) (hc : f.node c = .ok new) :
    remnant (f.settled old new).old = remnant (f.settled old new).new := by
  rw [remnant_eq_scaffold fun n hn => hf.held hp n (kept_old_settled hn),
    remnant_eq_scaffold fun n hn => hf.held hc n (kept_new_settled hn), settled,
    settle_agrees f.claimedAt old new]

theorem rendering_old (h : ¬ f.RootKept old new) :
    Segment.rendering (f.settled old new).old = old.content := by
  rw [old_settled]
  refine rendering_surveyRoot _ old ?_
  cases hl : old.layer.isLeaf with
  | true => exact Or.inl rfl
  | false => exact Or.inr (by simpa using fun hk => h ⟨hl, hk⟩)

/-- The new root is of its own generation, so it is never kept. -/
theorem rendering_new (f : Forest) (old new : Node) :
    Segment.rendering (f.settled old new).new = new.content := by
  rw [new_settled]
  exact rendering_surveyRoot _ new (Or.inr (by simp [Sieve.reused]))

end Forest

open Forest

/-- What stays of the filling when the patch between two roots has been taken. -/
def Patch.remains (f : Forest) (old new : Node) : Fragment :=
  Patch.leftover f.settings (f.settled old new).old (f.settled old new).new

/-- **The patch between two roots.** It exists, and a surface that begins with the rendering
of the old root takes it and then begins with that of the new one. -/
theorem takes_between {f : Forest} (hf : f.Sound) {p c : Handle} {old new : Node}
    (hp : f.node p = .ok old) (hc : f.node c = .ok new) (next : new.born = old.born + 1)
    (root : ¬ f.RootKept old new) (g : Fragment) (fit : (old.content ++ g).Fit) :
    ∃ patch, Patch.between f p c = .ok patch ∧
      Patch.Takes patch (old.content ++ g) (new.content ++ Patch.remains f old new ++ g) := by
  have ho : ∀ s ∈ (f.settled old new).old, s.Sized := hf.sized_old hp
  have hrow := rendering_old root
  have hwidth : old.innerSpan = totalWidth (f.settled old new).old := by
    rw [← Node.size_content (hf.sized_node hp), ← hrow, size_rendering ho]
  rw [← hrow] at fit
  obtain ⟨patch, hpatch, htakes⟩ := Patch.takes_assemble f.settings ho (hf.sized_new hc)
    (hf.remnant_settled hp hc) (hrow ▸ old.matched_content) g fit
  rw [rendering_new, hrow] at htakes
  refine ⟨patch, ?_, htakes⟩
  rw [rendering_new, ← hwidth] at hpatch
  simp only [Patch.between, hp, hc, bind, Except.bind, next, ne_eq, not_true_eq_false,
    ↓reduceIte]
  exact hpatch

/-- Where the first surveys agree, the patch is read off from them. -/
theorem Patch.between_of_agree {f : Forest} {p c : Handle} {old new : Node}
    (hp : f.node p = .ok old) (hc : f.node c = .ok new) (next : new.born = old.born + 1)
    (h : uprootNext f.claimedAt old new (fun _ => false) = []) :
    between f p c = assemble f.settings old.innerSpan new.content
      (Removal.ofSegments f.settings 0 (surveyOld f.claimedAt (fun _ => false) old))
      (Addition.ofSegments none 0 (surveyNew (fun _ => false) new)) := by
  simp [between, hp, hc, next, settle_of_agree h, bind, Except.bind]

end TreePatch
