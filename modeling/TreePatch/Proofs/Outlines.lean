import TreePatch.Proofs.Between
import TreePatch.Proofs.Coverage
import TreePatch.Proofs.Grammar
import TreePatch.Proofs.Stamps
import TreePatch.Proofs.Walks

/-! What is left of a root once the stretches noted in a walk are erased. A row of segments is
struck stretch by stretch, with nothing visible kept in a stretch and nothing visible changed
outside of them. So what is left is the remnant of the row (`Struck.eraseAll`), and that is told
from the scaffold alone (`scaffolds_remain`). -/

namespace TreePatch

open Segment Scaffold Token

namespace Fragment

/-- Takes what an extent covers out. -/
def erase (f : Fragment) (e : Extent) : Except Error Fragment := do
  let (before, rest) ← f.cutAt e.start
  let (_, after) ← rest.cutAt e.length
  return before ++ after

/-- Takes out what is covered, from the last extent to the first, so that no other one moves. -/
def eraseAll (f : Fragment) : List Extent → Except Error Fragment
  | [] => return f
  | e :: es => do (← f.eraseAll es).erase e

/-- A middle part between joints is erased. -/
theorem erase_append (f g h : Fragment) :
    (f ++ g ++ h).erase ⟨f.size, f.size + g.size⟩ = .ok (f ++ h) := by
  have hlength : (⟨f.size, f.size + g.size⟩ : Extent).length = g.size := by
    simp [Extent.length]
  simp only [erase, hlength, append_assoc, cutAt_append, bind, Except.bind, pure, Except.pure]

end Fragment

/-- An extent covers whole tokens of a root, each leaf with a text of its own, and what opens in it
closes in it. -/
structure Node.Cuts (root : Node) (e : Extent) (before piece after : List Token) : Prop where
  tokens : root.contentTokens = before ++ piece ++ after
  start : e.start = listWidth before
  stop : e.stop = listWidth before + listWidth piece
  visible : listWidth piece ≠ 0
  balanced : Balanced piece
  slice : root.content.slice e = .ok (.ofTokens piece)

/-! ## Rows that are struck -/

/-- The extents are the stretches of a row that go: nothing visible is kept in them, and nothing
visible changes outside of them. -/
inductive Struck : Nat → List Segment → List Extent → Prop
  | nil {position : Nat} {row : List Segment} :
      (∀ s ∈ row, s.isChanged = true → s.width = 0) → Struck position row []
  | cons {position : Nat} {row before middle after : List Segment} {e : Extent}
      {es : List Extent} : FirstStretch position row e before middle after → Cleared middle →
      Struck e.stop after es → Struck position row (e :: es)

theorem struck_removals (settings : Settings) (position : Nat) (row : List Segment) :
    Struck position row ((Removal.ofSegments settings position row).map Removal.extent) := by
  generalize h : Removal.ofSegments settings position row = rs
  induction rs generalizing position row with
  | nil => exact .nil (Removal.still_of_ofSegments_eq_nil h)
  | cons r rs ih =>
    obtain ⟨before, gone, after, hfirst, hgone, hrest⟩ := Removal.ofSegments_eq_cons h
    exact .cons hfirst hgone (ih r.extent.stop after hrest.symm)

theorem struck_additions (position : Nat) (row : List Segment) :
    Struck position row (Addition.ofSegments none position row) := by
  generalize h : Addition.ofSegments none position row = es
  induction es generalizing position row with
  | nil => exact .nil (Addition.still_of_ofSegments_eq_nil h)
  | cons e es ih =>
    obtain ⟨before, fresh, after, hfirst, hfresh, hrest⟩ := Addition.ofSegments_eq_cons h
    have hcleared : Cleared fresh := fun s hs hc => by rw [hfresh s hs] at hc; cases hc
    exact .cons hfirst hcleared (ih e.stop after hrest.symm)

namespace Struck

variable {position : Nat} {row : List Segment} {e : Extent} {es : List Extent}

/-- **Erasing leaves the remnant**, whatever stands in front of the row. -/
theorem eraseAll (h : Struck position row es) (sized : ∀ s ∈ row, s.Sized) (front : Fragment)
    (hfront : front.size = position) :
    (front ++ rendering row).eraseAll es = .ok (front ++ remnant row) := by
  induction h generalizing front with
  | nil still =>
    rw [remnant_eq_rendering sized still]
    rfl
  | @cons position row before middle after e es hfirst hmiddle hrest ih =>
    subst hfront
    have hafter : ∀ s ∈ after, s.Sized := fun s hs => sized s (by simp [hfirst.row, hs])
    have hextent := hfirst.extent_eq sized
    have later := ih hafter (front ++ rendering before ++ rendering middle)
      (by rw [hextent, Fragment.size_append (front ++ rendering before)])
    have hrow : front ++ rendering row =
        front ++ rendering before ++ rendering middle ++ rendering after := by
      simp only [hfirst.rendering_eq, Fragment.append_assoc]
    rw [Fragment.eraseAll, hrow, later, hfirst.remnant_eq sized hmiddle, ← Fragment.append_assoc,
      hextent]
    exact Fragment.erase_append (front ++ rendering before) (rendering middle) (remnant after)

/-- Each extent has its part of the row. -/
theorem exists_stretch (h : Struck position row es) (he : e ∈ es) :
    ∃ before middle after, Stretch position row e before middle after ∧ Cleared middle := by
  induction h with
  | nil _ => cases he
  | @cons position row before middle after first es hfirst hmiddle hrest ih =>
    rcases List.mem_cons.mp he with rfl | he
    · exact ⟨before, middle, after, ⟨hfirst.row, hfirst.extent, hfirst.visible⟩, hmiddle⟩
    · obtain ⟨between, piece, behind, hpiece, hcleared⟩ := ih he
      refine ⟨before ++ middle ++ between, piece, behind, ⟨?_, ?_, hpiece.visible⟩, hcleared⟩
      · simp only [hfirst.row, hpiece.row, List.append_assoc]
      · simp only [hpiece.extent, hfirst.extent, totalWidth_append, Nat.add_assoc]

end Struck

/-- What nothing visible is kept of holds whole branches only. -/
theorem Segment.Cleared.balanced {segments : List Segment} (h : Cleared segments) :
    Balanced (segments.flatMap Segment.tokens) :=
  (balanced_iff _).mpr ((Fragment.matched_ofTokens_iff _).mp h.matched)

theorem listWidth_flatMap_tokens {segments : List Segment} (sized : ∀ s ∈ segments, s.Sized) :
    listWidth (segments.flatMap Segment.tokens) = totalWidth segments := by
  rw [← size_rendering sized, Segment.rendering, Fragment.size_ofTokens]

/-! ## Roots -/

section Roots

variable {f : Forest} {s : Sieve} {h : Handle} {root : Node} {e : Extent} {es : List Extent}

theorem Sieve.rooted_of_standing {claimed : Handle → Generation} {uprooted : Handle → Bool}
    {n : Node} (h : (Sieve.standing root claimed uprooted).keeps n = true) :
    uprooted n.handle = false := by
  simp only [Sieve.standing, Bool.and_eq_true, Bool.not_eq_true'] at h
  exact h.2

theorem Sieve.rooted_of_reused {uprooted : Handle → Bool} {n : Node}
    (h : (Sieve.reused root uprooted).keeps n = true) : uprooted n.handle = false := by
  simp only [Sieve.reused, Bool.and_eq_true, Bool.not_eq_true'] at h
  exact h.2

/-- The tokens of a surveyed root, each leaf with a text of its own. -/
theorem tokens_surveyRoot (hs : s.keeps root = false) :
    (surveyRoot s root).flatMap Segment.tokens = root.contentTokens := by
  cases root with
  | leaf tag text =>
    simp [surveyRoot, hs, Segment.tokens, Node.contentTokens, Node.tokens]
  | branch tag kind children =>
    rw [surveyRoot_branch s tag kind children hs, surveyAmong_tokens, Node.contentTokens_branch]

namespace Forest.Sound

/-- An old root goes if it is uprooted or nothing newer has claimed it. -/
theorem standing_root (hf : f.Sound) (hr : f.node h = .ok root) {uprooted : Handle → Bool}
    (hroot : uprooted h = true ∨ f.claimedAt h ≤ root.born) :
    (Sieve.standing root f.claimedAt uprooted).keeps root = false := by
  rw [Sieve.standing, Bool.and_eq_false_iff, hf.named hr]
  rcases hroot with hroot | hroot
  · exact Or.inr (by rw [hroot]; rfl)
  · exact Or.inl (decide_eq_false (Nat.not_lt.mpr hroot))

/-- **What is left of a root** once what goes is erased can be told from the scaffold. -/
theorem eraseAll_of_struck (hf : f.Sound) (hr : f.node h = .ok root) (hs : s.keeps root = false)
    (hstruck : Struck 0 (surveyRoot s root) es) :
    root.content.eraseAll es = .ok ((ofSegments (surveyRoot s root)).rendering f) := by
  have herase := hstruck.eraseAll (sized_surveyRoot s (hf.sized hr)) .empty rfl
  rw [Fragment.empty_append, Fragment.empty_append, rendering_surveyRoot s root (Or.inr hs)]
    at herase
  rw [herase, remnant_eq_scaffold fun n hn =>
    hf.held hr n (node_mem_surveyRoot s root n _ hn rfl)]

theorem cuts_of_struck (hf : f.Sound) (hr : f.node h = .ok root)
    (hstruck : Struck 0 (surveyRoot s root) es) (he : e ∈ es) :
    ∃ before piece after, root.Cuts e before piece after := by
  obtain ⟨before, middle, after, ⟨hrow, rfl, hvisible⟩, hmiddle⟩ := hstruck.exists_stretch he
  cases hs : s.keeps root with
  | true =>
    -- the root is all there is, so nothing of it goes
    rw [surveyRoot_of_keeps hs] at hrow
    refine absurd ((totalWidth_eq_zero_iff middle).mpr fun g hg => ?_) hvisible
    have hkept : g ∈ [Segment.kept root] := hrow ▸ by simp [hg]
    obtain rfl := List.mem_singleton.mp hkept
    exact hmiddle _ hg rfl
  | false =>
    have hsized := sized_surveyRoot s (hf.sized hr)
    simp only [hrow, List.forall_mem_append] at hsized
    have hbefore := listWidth_flatMap_tokens hsized.1.1
    have hpiece := listWidth_flatMap_tokens hsized.1.2
    have htokens : root.contentTokens = before.flatMap Segment.tokens ++
        middle.flatMap Segment.tokens ++ after.flatMap Segment.tokens := by
      rw [← tokens_surveyRoot hs, hrow, List.flatMap_append, List.flatMap_append]
    refine ⟨_, _, _, htokens, ?_, ?_, ?_, hmiddle.balanced, ?_⟩
    · rw [hbefore, Nat.zero_add]
    · rw [hbefore, hpiece, Nat.zero_add]
    · rwa [hpiece]
    · have hslice := Fragment.slice_append (rendering before) (rendering middle) (rendering after)
      rw [size_rendering hsized.1.1, size_rendering hsized.1.2] at hslice
      rw [Node.content, htokens, Fragment.ofTokens_append, Fragment.ofTokens_append, Nat.zero_add]
      exact hslice

/-- What is kept is held by the forest, and nothing that goes is kept. -/
theorem kept_of_scaffold (hf : f.Sound) (hr : f.node h = .ok root) {uprooted : Handle → Bool}
    (hs : ∀ n, s.keeps n = true → uprooted n.handle = false) {k : Handle}
    (hk : .kept k ∈ ofSegments (surveyRoot s root)) :
    uprooted k = false ∧ ∃ n ∈ root.nodes, f.node k = .ok n := by
  obtain ⟨n, hn, rfl⟩ := (mem_ofSegments _ k).mp hk
  have hnode : n ∈ root.nodes := node_mem_surveyRoot s root n _ hn rfl
  exact ⟨hs n (kept_mem_surveyRoot s root n hn).2, n, hnode, hf.held hr n hnode⟩

end Forest.Sound

end Roots

/-- **What a scaffold renders to is what remains.** From any root that a reachable forest holds, and
with any handles uprooted, the extents noted in either walk can be erased, and the rendering of the
scaffold noted in that walk is left: on the way to a new root always, on the way from an old one
unless nothing has uprooted it and something newer has claimed it. Each extent is cut out between
tokens or leaves and closes what it opens. Nothing uprooted is kept. -/
theorem scaffolds_remain {f : Forest} (hf : f.Reachable) {h : Handle} {root : Node}
    (hr : f.node h = .ok root) (uprooted : Handle → Bool) :
    let old := Detaching.walkRoot f.settings (.standing root f.claimedAt uprooted) root
    let new := Extracting.walkRoot (.reused root uprooted) root
    f.detach uprooted h = .ok (old.removals, old.scaffold) ∧
      f.extract uprooted h = .ok (new.additions, new.scaffold) ∧
      (uprooted h = true ∨ f.claimedAt h ≤ root.born →
        root.content.eraseAll (old.removals.map Removal.extent) =
          .ok (old.scaffold.rendering f)) ∧
      root.content.eraseAll new.additions = .ok (new.scaffold.rendering f) ∧
      (∀ e ∈ old.removals.map Removal.extent ++ new.additions,
        ∃ before piece after, root.Cuts e before piece after) ∧
      ∀ k, .kept k ∈ old.scaffold ++ new.scaffold →
        uprooted k = false ∧ ∃ n ∈ root.nodes, f.node k = .ok n := by
  intro old new
  have hs : Node.AllSized [root] := hf.sound.allSized hr
  have hnew : (Sieve.reused root uprooted).keeps root = false := Sieve.reused_root root uprooted
  have hold : old = ⟨_, _⟩ := Detaching.walkRoot_eq f.settings (fun _ => rfl) hs
  have hnewWalk : new = ⟨_, _, _⟩ := Extracting.walkRoot_eq hs hnew
  have hstruckOld := struck_removals f.settings 0
    (surveyRoot (.standing root f.claimedAt uprooted) root)
  have hstruckNew := struck_additions 0 (surveyRoot (.reused root uprooted) root)
  refine ⟨detach_eq_walk hr hs, extract_eq_walk hr hs, ?_⟩
  rw [hold, hnewWalk]
  refine ⟨fun hroot => ?_, hf.sound.eraseAll_of_struck hr hnew hstruckNew, fun e he => ?_,
    fun k hk => ?_⟩
  · exact hf.sound.eraseAll_of_struck hr (hf.sound.standing_root hr hroot) hstruckOld
  · rcases List.mem_append.mp he with he | he
    · exact hf.sound.cuts_of_struck hr hstruckOld he
    · exact hf.sound.cuts_of_struck hr hstruckNew he
  · rcases List.mem_append.mp hk with hk | hk
    · exact hf.sound.kept_of_scaffold hr (fun _ => Sieve.rooted_of_standing) hk
    · exact hf.sound.kept_of_scaffold hr (fun _ => Sieve.rooted_of_reused) hk

/-- Two of three paragraphs go into the items of a list, and all of them go on from there. -/
def sharedForest : Forest :=
  Scripted.forest [
    .build (.branch "doc" [.branch "paragraph" [.leaf "Hi" none] none,
      .branch "paragraph" [.leaf "a" none] none, .branch "paragraph" [.leaf "b" none] none] none),
    .advance,
    .build (.branch "doc" [.node (.index 1), .branch "list" [
      .branch "item" [.node (.index 3)] none, .branch "item" [.node (.index 5)] none] none] none),
    .advance,
    .build (.branch "doc" [.node (.index 1), .node (.index 3), .node (.index 5)] none)]

def sharedScaffold : Scaffold :=
  [.kept ⟨0, 1⟩, .opening "list", .opening "item", .kept ⟨0, 5⟩, .closing "item", .closing "list"]

/-- With the paragraph of the first item uprooted that item goes and the list around it stays. -/
theorem scaffolds_remain_shared : ∃ root,
    sharedForest.node ⟨0, 10⟩ = .ok root ∧ sharedForest.claimedAt ⟨0, 10⟩ ≤ root.born ∧
    sharedForest.detach (· == ⟨0, 3⟩) ⟨0, 10⟩ = .ok ([⟨⟨5, 10⟩, "item"⟩], sharedScaffold) ∧
    sharedForest.extract (· == ⟨0, 3⟩) ⟨0, 10⟩ = .ok ([⟨5, 10⟩], sharedScaffold) ∧
    root.content.eraseAll [⟨5, 10⟩] = .ok (sharedScaffold.rendering sharedForest) ∧
    (∃ before piece after, root.Cuts ⟨5, 10⟩ before piece after) ∧
    ∀ k, .kept k ∈ sharedScaffold → (k == ⟨0, 3⟩) = false ∧
      ∃ n ∈ root.nodes, sharedForest.node k = .ok n := by
  obtain ⟨root, hr⟩ : ∃ root, sharedForest.node ⟨0, 10⟩ = .ok root :=
    (Forest.exists_node_iff _ _).mpr (by decide +kernel)
  have hborn : (sharedForest.node ⟨0, 10⟩).map Node.born = .ok 1 := by decide +kernel
  rw [hr] at hborn
  have hclaim : sharedForest.claimedAt ⟨0, 10⟩ ≤ root.born := by
    rw [Except.ok.inj hborn]
    decide +kernel
  have hdetach : sharedForest.detach (· == ⟨0, 3⟩) ⟨0, 10⟩ =
      .ok ([⟨⟨5, 10⟩, "item"⟩], sharedScaffold) := by decide +kernel
  have hextract : sharedForest.extract (· == ⟨0, 3⟩) ⟨0, 10⟩ =
      .ok ([⟨5, 10⟩], sharedScaffold) := by decide +kernel
  obtain ⟨hold, -, herase, -, hcuts, hkept⟩ :=
    scaffolds_remain (Scripted.reachable_forest _) hr (· == ⟨0, 3⟩)
  obtain ⟨hremovals, hscaffold⟩ := Prod.mk.inj (Except.ok.inj (hold.symm.trans hdetach))
  rw [hremovals, hscaffold] at herase
  rw [hremovals] at hcuts
  rw [hscaffold] at hkept
  exact ⟨root, hr, hclaim, hdetach, hextract, herase (Or.inr hclaim), hcuts _ (by simp),
    fun k hk => hkept k (List.mem_append_left _ hk)⟩

end TreePatch
