import TreePatch.Proofs.Persistence
import TreePatch.Proofs.Renaming
import TreePatch.Proofs.RoundTrip

/-! What a patch is told by. The forest enters it only with the trees of the two roots and with
which nodes of the old one count as claimed. Other nodes, later claims and the names themselves
leave it as it is (`patch_determined`). -/

namespace TreePatch

namespace Forest

variable {ρ : Handle → Handle} {f g : Forest} {p c p' c' : Handle} {old new : Node}

/-- Of two pairs of roots the forests tell the same: the patch, what is removed from the first
root, and what is added for the second. -/
structure SameBetween (f : Forest) (p c : Handle) (g : Forest) (p' c' : Handle) : Prop where
  patch : Patch.between g p' c' = Patch.between f p c
  removals : g.removals p' = f.removals p
  additions : g.additions c' = f.additions c

/-- **Kindred trees are told the same of** in forests of the same settings. -/
theorem same_of_kindred (hp : f.node p = .ok old) (hc : f.node c = .ok new)
    (hp' : g.node p' = .ok (old.rename ρ)) (hc' : g.node c' = .ok (new.rename ρ))
    (settings : g.settings = f.settings) (h : Kindred ρ f.claimedAt g.claimedAt old new) :
    f.SameBetween p c g p' c' where
  patch := by
    have same : ∀ k ∈ old.handles ++ new.handles,
        (∅ : Std.TreeSet Handle).contains (ρ k) = (∅ : Std.TreeSet Handle).contains k := by simp
    obtain ⟨hold, hnew⟩ := h.settleFrom same
    simp only [Patch.between, hp, hc, hp', hc', bind, Except.bind, Node.born_rename,
      Node.innerSpan_rename, Node.content_rename, settle, hold, hnew, settings,
      Removal.ofSegments_rename, Addition.ofSegments_rename]
  removals := by
    have hrow : surveyOld g.claimedAt (fun _ => false) (old.rename ρ) =
        (surveyOld f.claimedAt (fun _ => false) old).map (Segment.rename ρ) :=
      h.surveyOld fun _ _ => rfl
    simp only [removals, hp, hp', bind, Except.bind, settings, hrow, Removal.ofSegments_rename]
  additions := by
    have hrow : surveyNew (fun _ => false) (new.rename ρ) =
        (surveyNew (fun _ => false) new).map (Segment.rename ρ) :=
      h.surveyNew fun _ _ => rfl
    simp only [additions, hc, hc', bind, Except.bind, hrow, Addition.ofSegments_rename]

/-- The same trees are kindred if the same nodes count as claimed. -/
theorem same_of_node (hp : f.node p = .ok old) (hc : f.node c = .ok new)
    (hp' : g.node p = .ok old) (hc' : g.node c = .ok new) (settings : g.settings = f.settings)
    (live : ∀ n ∈ old.nodes, old.born < g.claimedAt n.handle ↔ old.born < f.claimedAt n.handle) :
    f.SameBetween p c g p c := by
  refine same_of_kindred (ρ := id) hp hc ?_ ?_ settings ⟨fun _ _ _ _ he => he, live⟩
  · rw [hp', Node.rename_id]
  · rw [hc', Node.rename_id]

end Forest

namespace Tended

variable {strays : Bool} {named : List Handle} {t u v : Tended}

/-- A run in which no step drops one of the nodes named. It may go back, but not behind them. -/
inductive Sparing (strays : Bool) (named : List Handle) (t : Tended) : Tended → Prop
  | refl : Sparing strays named t t
  | tail {u v : Tended} : Sparing strays named t u → Step strays u v →
      (∀ h ∈ named, ∃ n, v.forest.node h = .ok n) → Sparing strays named t v

theorem Sparing.run (h : Sparing strays named t u) : Run strays t u := by
  induction h with
  | refl => exact .refl
  | tail _ hs _ ih => exact .tail ih hs

/-- A step that does not drop a node leaves it as it is. -/
theorem Step.node (hs : Step strays u v) {h : Handle} {m n : Node}
    (hu : u.forest.node h = .ok n) (hv : v.forest.node h = .ok m) : m = n := by
  cases hs with
  | build hb =>
    obtain ⟨_, hg, -, -⟩ := Forest.build_cases hb
    exact Except.ok.inj (hv.symm.trans ((hg.view h n).mpr (Or.inl hu)))
  | advance => exact Except.ok.inj (hv.symm.trans hu)
  | @clear arena _ =>
    have hnone : (u.forest.clear arena).node h ≠ .ok m := by
      simp [Forest.clear, Forest.node_eq_ok_iff, Forest.find?]
    exact absurd hv hnone
  | save => exact Except.ok.inj (hv.symm.trans hu)
  | restore _ hr =>
    have hkept := ((Forest.node_restore hr h m).mp hv).1
    exact Except.ok.inj (hkept.symm.trans hu)

theorem Sparing.node (h : Sparing strays named t u) {k : Handle} (hk : k ∈ named) {n : Node}
    (hn : t.forest.node k = .ok n) : u.forest.node k = .ok n := by
  induction h with
  | refl => exact hn
  | tail _ hs spared ih =>
    obtain ⟨m, hm⟩ := spared k hk
    rw [hm, hs.node ih hm]

end Tended

/-- **A patch depends on the two trees and on which old nodes are live**, and on nothing else.
However a forest is worked on, as long as the two roots are not dropped and the same nodes of the
old tree count as claimed, the patch, the removals and the additions stay what they are. So they
do in another sound forest of the same settings that holds the trees under other names. -/
theorem patch_determined :
    (∀ (strays : Bool) (t u : Tended) (p c : Handle) (old new : Node),
      t.forest.node p = .ok old → t.forest.node c = .ok new → t.Sparing strays [p, c] u →
      (∀ n ∈ old.nodes, old.born < u.forest.claimedAt n.handle ↔
        old.born < t.forest.claimedAt n.handle) →
      t.forest.SameBetween p c u.forest p c) ∧
    ∀ (ρ : Handle → Handle) (f g : Forest) (p c p' c' : Handle) (old new old' new' : Node),
      f.Sound → g.Sound → g.settings = f.settings →
      f.node p = .ok old → f.node c = .ok new → g.node p' = .ok old' → g.node c' = .ok new' →
      old.Alike ρ old' → new.Alike ρ new' → Set.InjOn ρ {h | h ∈ old.handles ++ new.handles} →
      (∀ n ∈ old.nodes, old.born < g.claimedAt (ρ n.handle) ↔ old.born < f.claimedAt n.handle) →
      f.SameBetween p c g p' c' := by
  constructor
  · intro strays t u p c old new hp hc hrun live
    exact Forest.same_of_node hp hc (hrun.node (by simp) hp) (hrun.node (by simp) hc)
      hrun.run.settings live
  · intro ρ f g p c p' c' old new old' new' hf hg settings hp hc hp' hc' hold hnew inj live
    have grown {f : Forest} (hf : f.Sound) {h : Handle} {root : Node} (hr : f.node h = .ok root) :
        ∀ n ∈ root.nodes, n.Grown :=
      fun n hn => hf.grown (hf.held hr n hn)
    obtain rfl := hold.eq_rename (grown hf hp) (grown hg hp')
    obtain rfl := hnew.eq_rename (grown hf hc) (grown hg hc')
    exact Forest.same_of_kindred hp hc hp' hc' settings ⟨inj, live⟩

/-- Work on the forest of the branch that moved: a text is built and dropped again, and a scratch
branch of a third generation claims the branch once more. -/
def movedTended : Tended := ⟨⟨movedForest, 1⟩, []⟩

def scratchTended : Tended :=
  ⟨⟨movedForest.advance.attempt (.branch "scratch" [⟨0, 2⟩]), 1⟩, [movedForest.save]⟩

theorem sparing_scratch : movedTended.Sparing false [⟨0, 3⟩, ⟨0, 5⟩] scratchTended := by
  have held {f : Forest} (hp : ∃ n, f.node ⟨0, 3⟩ = .ok n) (hc : ∃ n, f.node ⟨0, 5⟩ = .ok n) :
      ∀ h ∈ [(⟨0, 3⟩ : Handle), ⟨0, 5⟩], ∃ n, f.node h = .ok n := by
    simpa using ⟨hp, hc⟩
  have hsave : movedTended.Sparing false [⟨0, 3⟩, ⟨0, 5⟩] ⟨⟨movedForest, 1⟩, [movedForest.save]⟩ :=
    .tail .refl .save (held ⟨_, rfl⟩ ⟨_, rfl⟩)
  have htext : movedTended.Sparing false [⟨0, 3⟩, ⟨0, 5⟩]
      ⟨⟨movedForest.attempt (.leaf "w"), 1⟩, [movedForest.save]⟩ :=
    .tail hsave (.build (show movedForest.build (.leaf "w") = .ok (⟨0, 6⟩, _) from rfl))
       (held ⟨_, rfl⟩ ⟨_, rfl⟩)
  have hback : movedTended.Sparing false [⟨0, 3⟩, ⟨0, 5⟩]
      ⟨⟨movedForest, 1⟩, [movedForest.save]⟩ :=
    .tail htext (.restore (List.nil_append _).symm rfl) (held ⟨_, rfl⟩ ⟨_, rfl⟩)
  have hnext : movedTended.Sparing false [⟨0, 3⟩, ⟨0, 5⟩]
      ⟨⟨movedForest.advance, 1⟩, [movedForest.save]⟩ :=
    .tail hback .advance (held ⟨_, rfl⟩ ⟨_, rfl⟩)
  exact .tail hnext (.build
    (show movedForest.advance.build (.branch "scratch" [⟨0, 2⟩]) = .ok (⟨0, 6⟩, _) from rfl))
     (held ⟨_, rfl⟩ ⟨_, rfl⟩)

/-- The same trees in a forest with other texts among their nodes. -/
def mixedForest : Forest :=
  Scripted.forest [.build (.leaf "w" none), .build (.branch "doc" [.leaf "x" none,
      .branch "paragraph" [.leaf "y" none] (some "y")] (some "p")), .advance,
    .build (.leaf "v" none),
    .build (.branch "doc" [.node (.label "y"), .leaf "z" none] (some "c"))]

/-- Where the nodes of the first forest are in the second. -/
def mixedName (h : Handle) : Handle := ⟨h.arena, h.index + if h.index < 4 then 1 else 2⟩

theorem patch_determined_moved :
    movedForest.claimedAt ⟨0, 2⟩ = 1 ∧ scratchTended.forest.claimedAt ⟨0, 2⟩ = 2 ∧
      movedForest.SameBetween ⟨0, 3⟩ ⟨0, 5⟩ scratchTended.forest ⟨0, 3⟩ ⟨0, 5⟩ ∧
      movedForest.SameBetween ⟨0, 3⟩ ⟨0, 5⟩ mixedForest ⟨0, 4⟩ ⟨0, 7⟩ := by
  have hp : movedForest.node ⟨0, 3⟩ = .ok _ := rfl
  have hc : movedForest.node ⟨0, 5⟩ = .ok _ := rfl
  have hp' : mixedForest.node ⟨0, 4⟩ = .ok _ := rfl
  have hc' : mixedForest.node ⟨0, 7⟩ = .ok _ := rfl
  have hmoved : movedForest.settings = {} := rfl
  have hmixed' : mixedForest.settings = {} := rfl
  obtain ⟨hlater, hmixed⟩ := patch_determined
  refine ⟨rfl, rfl, ?_, ?_⟩
  · exact hlater false movedTended _ _ _ _ _ hp hc sparing_scratch (by decide)
  · refine hmixed mixedName _ _ _ _ _ _ _ _ _ _ (Scripted.reachable_forest _).sound
      (Scripted.reachable_forest _).sound (hmixed'.trans hmoved.symm) hp hc hp' hc' ?_ ?_ ?_
      (by decide)
    · decide +kernel
    · decide +kernel
    · rintro ⟨a, i⟩ - ⟨b, j⟩ - he
      simp only [mixedName, Handle.mk.injEq] at he ⊢
      refine ⟨he.1, ?_⟩
      have hindex := he.2
      split at hindex <;> split at hindex <;> omega

end TreePatch
