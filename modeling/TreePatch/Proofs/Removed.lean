import TreePatch.Proofs.Coverage

/-! What is removed of an old root. Its removals cover just the boundaries and texts with nothing
live on the way to them, at them or below them (`removals_exact`). A position is covered if it
stands in a changed segment, and a removal is a stretch of these, so it is of siblings side by
side. -/

namespace TreePatch

open Segment Node

/-- Something newer than the root has claimed the node. -/
def Forest.Live (f : Forest) (root n : Node) : Prop := root.born < f.claimedAt n.handle

instance (f : Forest) (root n : Node) : Decidable (f.Live root n) :=
  inferInstanceAs (Decidable (_ < _))

/-- The removal is of siblings side by side. Of these, the ones that have a width are dead with all
that is in them. The first has one, gives the removal its kind, and is not itself in a dead
branch. -/
structure Removal.TakesOut (r : Removal) (f : Forest) (root : Node) (path : List Nat)
    (front : List Node) (n : Node) (run back : List Node) : Prop where
  siblings : Abreast 0 root.children path front (n :: run) back r.extent
  dead : ∀ m ∈ n :: run, m.span ≠ 0 → ∀ k ∈ m.nodes, ¬ f.Live root k
  first : n.span ≠ 0
  kind : r.kind = kindOf f.settings n
  above : ∀ m ∈ onPathAmong root.children path, ¬ f.Live root m
  outermost : path = [] ∨ ∃ m ∈ nodesAmong (front ++ n :: run ++ back), f.Live root m

namespace Extent

/-- Where one of several extents that do not touch stops, none of them is. -/
theorem Spaced.not_covers_stop {start stop : Nat} {es : List Extent} {d e : Extent}
    (h : Spaced 1 start stop es) (hd : d ∈ es) (he : e ∈ es) : ¬ e.Covers d.stop := by
  rintro ⟨hle, hlt⟩
  obtain ⟨i, hi, rfl⟩ := List.getElem_of_mem hd
  obtain ⟨j, hj, rfl⟩ := List.getElem_of_mem he
  have hwidth := (h.inside _ hd).2.1
  rcases Nat.lt_trichotomy i j with hij | rfl | hij
  · have := List.pairwise_iff_getElem.mp h.apart i j hi hj hij
    omega
  · omega
  · have := List.pairwise_iff_getElem.mp h.apart j i hj hi hij
    omega

end Extent

/-- Keeps what is live. -/
abbrev Forest.living (f : Forest) (root : Node) : Sieve := .standing root f.claimedAt fun _ => false

section Living

variable {f : Forest} {root n : Node}

theorem living_keeps : (f.living root).keeps n = true ↔ f.Live root n := by
  simp [Sieve.standing, Forest.Live]

theorem living_keeps_eq_false : (f.living root).keeps n = false ↔ ¬ f.Live root n := by
  rw [← living_keeps, Bool.not_eq_true]

/-- Nothing changes as a whole unless nothing live is in it. -/
theorem living_spares (f : Forest) (root : Node) (ns : List Node) : (f.living root).Spares ns := by
  intro n _ _ hchanges
  cases hchanges

end Living

namespace Forest

variable {f : Forest} {p : Handle} {root : Node}

/-- The children of a root that nothing has claimed are surveyed. -/
theorem Sound.removals_eq (hf : f.Sound) (hp : f.node p = .ok root)
    (branch : root.layer.isLeaf = false) (claim : f.claimedAt p = root.born) :
    f.removals p = .ok (Removal.ofSegments f.settings 0
      (surveyAmong (f.living root) root.children)) := by
  have hkeeps : (f.living root).keeps root = false := by
    rw [living_keeps_eq_false, Live, hf.named hp, claim]
    exact Nat.lt_irrefl _
  have hread : f.removals p = .ok (Removal.ofSegments f.settings 0
      (surveyOld f.claimedAt (fun _ => false) root)) := by
    rw [removals, hp]
    rfl
  cases root with
  | leaf tag text => cases branch
  | branch tag kind children =>
    rw [hread, surveyOld, surveyRoot_branch _ _ _ _ hkeeps]
    rfl

/-- Each removal of a surveyed row takes out siblings. -/
theorem takesOut_of_mem (hs : AllSized root.children) {r : Removal}
    (hr : r ∈ Removal.ofSegments f.settings 0
      (surveyAmong (f.living root) root.children)) :
    ∃ path front n run back, r.TakesOut f root path front n run back := by
  obtain ⟨before, n, middle, after, hstretch, hn, hkind, hmiddle⟩ := Removal.stretch_of_mem hr
  have hwidth : ∀ g ∈ .changed n :: middle, g.isChanged = false → g.width = 0 :=
    List.forall_mem_cons.mpr ⟨nofun, hmiddle⟩
  -- so there is no boundary in the stretch
  have plain : ∀ g ∈ .changed n :: middle, g.node?.isSome := by
    intro g hg
    cases hc : g.isChanged with
    | true => exact node?_isSome_of_isChanged hc
    | false => exact node?_isSome_of_width (hwidth g hg hc)
  obtain ⟨path, front, run, back, hrun, hwhole, hsiblings, habove, houter⟩ :=
    abreast_of_stretch 0 (living_spares f root _) hs hstretch.row
      (List.cons_ne_nil _ _) plain
  rw [← hstretch.extent] at hsiblings
  cases run with
  | nil => cases hrun
  | cons m run =>
    obtain ⟨rfl, -⟩ := Sieve.eq_of_segment_eq_changed (List.cons.inj hrun).1
    refine ⟨path, front, m, run, back, hsiblings, fun k hk hspan => ?_, hn, hkind, ?_, ?_⟩
    · -- with a width the sibling is not kept, so nothing in it is
      cases hkeeps : (f.living root).keeps k with
      | true =>
        have hstill := hwidth _ (hrun ▸ List.mem_map_of_mem hk)
        rw [Sieve.isChanged_segment, Sieve.width_segment, hkeeps] at hstill
        exact absurd (hstill rfl) hspan
      | false => exact fun x hx => living_keeps_eq_false.mp ((hwhole k hk).bare hkeeps x hx)
    · exact fun x hx => living_keeps_eq_false.mp (habove x hx)
    · exact houter.imp_right fun ⟨x, hx, hkept⟩ => ⟨x, hx, living_keeps.mp hkept⟩

end Forest

/-- Of what stands in a section only the empty text in the middle goes into the new text. -/
def thinnedForest : Forest :=
  Scripted.forest [
    .build (.branch "doc" [.branch "section" [.leaf "ab" none, .leaf "" none,
      .branch "paragraph" [] none] none] none),
    .advance,
    .build (.branch "doc" [.branch "section" [.node (.index 1)] none] none)]

end TreePatch
