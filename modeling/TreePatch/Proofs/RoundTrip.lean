import TreePatch.Proofs.Between

/-! A surface that holds the old rendering and takes the patch between two roots holds the new
one, unless something is left over. Nothing is left over if no older node without width stands
directly below a branch of the new generation: such a node can be kept unseen in the middle of
what is added. -/

namespace TreePatch

open Segment

/-- Directly below a branch as new as the root stands an older node that takes up no position. -/
def Node.ReusesBlank (root : Node) : Prop :=
  ∃ b ∈ root.nodes, b.born = root.born ∧ ∃ n ∈ b.children, n.born < root.born ∧ n.span = 0

instance (root : Node) : Decidable root.ReusesBlank :=
  inferInstanceAs (Decidable (∃ b ∈ root.nodes, _ ∧ ∃ n ∈ b.children, _))

/-! ## What a new row keeps -/

mutual

/-- What is kept below a node stands directly below a branch that is not older than the root. -/
theorem kept_survey_reused (root : Node) (uprooted : Handle → Bool) (m n : Node)
    (h : Segment.kept n ∈ survey (.reused root uprooted) m) :
    n = m ∨ ∃ b ∈ m.nodes, root.born ≤ b.born ∧ n ∈ b.children := by
  rcases mem_survey_cases h with ⟨he, -⟩ | he | ⟨hchanges, hb | hbelow⟩
  · simp only [Segment.kept.injEq] at he
    exact Or.inl he
  · cases he
  · cases hb
  · cases m with
    | leaf tag text => simp [Node.children, surveyAmong] at hbelow
    | branch tag kind children =>
      rcases kept_surveyAmong_reused root uprooted children n hbelow with hn | ⟨b, hb, hle, hn⟩
      · refine Or.inr ⟨_, Node.mem_nodes_self _, ?_, hn⟩
        simp only [Sieve.reused, Bool.or_eq_false_iff, decide_eq_false_iff_not] at hchanges
        exact Nat.le_of_not_lt hchanges.1
      · exact Or.inr ⟨b, List.mem_cons_of_mem _ hb, hle, hn⟩

theorem kept_surveyAmong_reused (root : Node) (uprooted : Handle → Bool) (ms : List Node)
    (n : Node) (h : Segment.kept n ∈ surveyAmong (.reused root uprooted) ms) :
    n ∈ ms ∨ ∃ b ∈ Node.nodesAmong ms, root.born ≤ b.born ∧ n ∈ b.children := by
  cases ms with
  | nil => simp [surveyAmong] at h
  | cons m ms =>
    simp only [surveyAmong, List.mem_append] at h
    rcases h with h | h
    · rcases kept_survey_reused root uprooted m n h with rfl | ⟨b, hb, hle, hn⟩
      · exact Or.inl List.mem_cons_self
      · exact Or.inr ⟨b, List.mem_append_left _ hb, hle, hn⟩
    · rcases kept_surveyAmong_reused root uprooted ms n h with hn | ⟨b, hb, hle, hn⟩
      · exact Or.inl (List.mem_cons_of_mem _ hn)
      · exact Or.inr ⟨b, List.mem_append_right _ hb, hle, hn⟩

end

theorem kept_surveyNew {uprooted : Handle → Bool} {root n : Node}
    (h : Segment.kept n ∈ surveyNew uprooted root) :
    n.born < root.born ∧ ∃ b ∈ root.nodes, root.born ≤ b.born ∧ n ∈ b.children := by
  have hkeeps := (kept_mem_surveyRoot _ _ _ h).2
  simp only [Sieve.reused, Bool.and_eq_true, decide_eq_true_eq] at hkeeps
  refine ⟨hkeeps.1, ?_⟩
  cases root with
  | leaf tag text => simp [surveyNew, surveyRoot, Sieve.reused] at h
  | branch tag kind children =>
    rw [surveyNew, surveyRoot_branch _ _ _ _ (by simp [Sieve.reused])] at h
    rcases kept_surveyAmong_reused _ uprooted children n h with hn | ⟨b, hb, hle, hn⟩
    · exact ⟨_, Node.mem_nodes_self _, Nat.le_refl _, hn⟩
    · exact ⟨b, List.mem_cons_of_mem _ hb, hle, hn⟩

theorem Addition.ofSegments_all_changed {segments : List Segment}
    (h : ∀ s ∈ segments, s.isChanged = true) (start position : Nat) :
    ofSegments (some start) position segments =
      close (some start) (position + totalWidth segments) := by
  induction segments generalizing position with
  | nil => rfl
  | cons s ss ih =>
    have hs := h s List.mem_cons_self
    cases s with
    | changed n =>
      simp only [ofSegments, Option.getD_some, totalWidth_cons, width]
      rw [ih (fun s hs => h s (List.mem_cons_of_mem _ hs)), Nat.add_assoc]
    | _ => simp [isChanged] at hs

/-- A row that changes throughout is added at once. -/
theorem Patch.fills_of_all_changed {settings : Settings} {segments : List Segment}
    (sized : ∀ s ∈ segments, s.Sized) (h : ∀ s ∈ segments, s.isChanged = true)
    (hw : totalWidth segments ≠ 0) :
    Fills settings (rendering segments) (Addition.ofSegments none 0 segments) := by
  cases segments with
  | nil => simp at hw
  | cons s ss =>
    have hs := h s List.mem_cons_self
    cases s with
    | changed n =>
      have hadds : Addition.ofSegments none 0 (.changed n :: ss) =
          [⟨0, totalWidth (.changed n :: ss)⟩] := by
        simp only [Addition.ofSegments, Option.getD_none]
        rw [Addition.ofSegments_all_changed fun s hs => h s (List.mem_cons_of_mem _ hs)]
        simp only [totalWidth_cons, width] at hw ⊢
        simp [Addition.close, Nat.pos_of_ne_zero hw]
      rw [hadds]
      exact Or.inl (size_rendering sized).symm
    | _ => simp [isChanged] at hs

namespace Forest

variable {f : Forest} {h p c : Handle} {old new root : Node}

/-- No node below a root is newer than the root. -/
theorem Sound.born_le_root (hf : f.Sound) (hr : f.node h = .ok root) :
    ∀ n ∈ root.nodes, n.born ≤ root.born := by
  induction hi : h.index using Nat.strongRecOn generalizing h root with
  | ind i ih =>
  intro n hn
  cases root with
  | leaf tag text =>
    simp only [Node.nodes, List.mem_singleton] at hn
    exact hn ▸ Nat.le_refl _
  | branch tag kind children =>
    rcases Node.mem_nodes_branch.mp hn with rfl | ⟨c, hc, hn⟩
    · exact Nat.le_refl _
    · obtain ⟨hk, hlt⟩ := hf.below hr c hc
      exact Nat.le_trans (ih c.handle.index (by omega) hk rfl n hn) ((hf.grown hr).2.2.2 c hc)

/-- What a new row keeps is visible unless the new root reuses a blank. -/
theorem Sound.span_of_kept (hf : f.Sound) (hc : f.node c = .ok new) (blank : ¬ new.ReusesBlank)
    {n : Node} (hn : Segment.kept n ∈ (f.settled old new).new) : n.span ≠ 0 := by
  intro hz
  rw [new_settled] at hn
  obtain ⟨hlt, b, hb, hle, hchild⟩ := kept_surveyNew hn
  have hborn := hf.born_le_root hc b hb
  exact blank ⟨b, hb, Nat.le_antisymm hborn hle, n, hchild, hlt, hz⟩

/-- **Nothing is left over** unless the new root reuses a blank. -/
theorem Sound.not_strands (hf : f.Sound) (hp : f.node p = .ok old) (hc : f.node c = .ok new)
    (blank : ¬ new.ReusesBlank) (content : new.content.size ≠ 0) :
    ¬ Patch.Strands f.settings (f.settled old new).old (f.settled old new).new := by
  rintro ⟨hcleared, -, hfills⟩
  have hn : ∀ s ∈ (f.settled old new).new, s.Sized := hf.sized_new hc
  have hempty : remnant (f.settled old new).new = .empty := by
    rw [← hf.remnant_settled hp hc]
    exact remnant_eq_empty (hf.sized_old hp) hcleared
  have hnew : Cleared (f.settled old new).new := (remnant_eq_empty_iff hn).mp hempty
  refine hfills (Patch.fills_of_all_changed hn (fun s hs => ?_) ?_)
  · cases s with
    | changed n => rfl
    | kept n => exact absurd (hnew _ hs rfl) (hf.span_of_kept hc blank hs)
    | opening kind => cases hnew _ hs rfl
    | closing kind => cases hnew _ hs rfl
  · rw [← size_rendering hn, rendering_new]
    exact content

/-- A root that nothing newer has claimed is not kept. -/
theorem Sound.not_rootKept (hf : f.Sound) (hp : f.node p = .ok old)
    (claim : f.claimedAt p = old.born) : ¬ f.RootKept old new := by
  rintro ⟨-, hk⟩
  simp only [Sieve.standing, Bool.and_eq_true, decide_eq_true_eq, hf.named hp] at hk
  exact Nat.ne_of_lt hk.1 claim.symm

end Forest

/-- A surface with the old rendering takes the patch and then holds the new rendering and what
remains of the filling. -/
theorem applyPatch_between {f : Forest} (hf : f.Sound) {p c : Handle} {old new : Node}
    {d e : Document} (hp : f.node p = .ok old) (hc : f.node c = .ok new)
    (next : new.born = old.born + 1) (root : ¬ f.RootKept old new)
    (hd : Document.ofRoot old = .ok d) (he : Document.ofRoot new = .ok e) :
    ∃ patch last, Patch.between f p c = .ok patch ∧ d.applyPatch patch = (last, none) ∧
      last.content = e.content ++ Patch.remains f old new ∧
      (last = e ↔
        ¬ Patch.Strands f.settings (f.settled old new).old (f.settled old new).new) := by
  have hdc := Document.content_of_ofFragment hd
  have hec := Document.content_of_ofFragment he
  obtain ⟨patch, hpatch, htakes⟩ := takes_between hf hp hc next root .empty
    (by simpa [← hdc] using d.fit)
  simp only [Fragment.append_empty] at htakes
  obtain ⟨last, hlast, hcontent⟩ := htakes d hdc
  refine ⟨patch, last, hpatch, hlast, by rw [hcontent, hec], ?_⟩
  constructor
  · -- the placeholder would make the surface too long
    rintro rfl hs
    have hsize := congrArg Fragment.size hcontent
    rw [Patch.remains, Patch.leftover, if_pos hs, hec, Fragment.size_append,
      Fragment.size_bareBranch] at hsize
    omega
  · intro hs
    refine Document.ext ?_
    rw [hcontent, hec, Patch.remains, Patch.leftover, if_neg hs, Fragment.append_empty]

/-- **Round trip.** Whatever the new root does with older nodes, a surface that holds the old
rendering takes every step of the patch and then holds the new one. -/
theorem between_roundTrip {f : Forest} (hf : f.Reachable) {p c : Handle} {old new : Node}
    {d e : Document} (hp : f.node p = .ok old) (hc : f.node c = .ok new)
    (next : new.born = old.born + 1) (hd : Document.ofRoot old = .ok d)
    (he : Document.ofRoot new = .ok e) (claim : f.claimedAt p = old.born)
    (blank : ¬ new.ReusesBlank) :
    ∃ patch, Patch.between f p c = .ok patch ∧ d.applyPatch patch = (e, none) := by
  have hs := hf.sound
  obtain ⟨patch, last, hpatch, hlast, -, hiff⟩ :=
    applyPatch_between hs hp hc next (hs.not_rootKept hp claim) hd he
  have hsize : new.content.size ≠ 0 := Document.content_of_ofFragment he ▸ e.fit.1
  rw [hiff.mpr (hs.not_strands hp hc blank hsize)] at hlast
  exact ⟨patch, hpatch, hlast⟩

/-- A branch that moves to the front, and a text that comes anew. -/
def movedForest : Forest :=
  Scripted.forest [.build (.branch "doc" [.leaf "x" none,
      .branch "paragraph" [.leaf "y" none] (some "y")] (some "p")),
    .advance, .build (.branch "doc" [.node (.label "y"), .leaf "z" none] (some "c"))]

def movedBefore : Document :=
  ⟨.ofTokens [.text "x", .opening "paragraph", .text "y", .closing "paragraph"], by decide,
    by decide⟩

def movedAfter : Document :=
  ⟨.ofTokens [.opening "paragraph", .text "y", .closing "paragraph", .text "z"], by decide,
    by decide⟩

theorem between_roundTrip_moved : ∃ patch,
    Patch.between movedForest ⟨0, 3⟩ ⟨0, 5⟩ = .ok patch ∧
      movedBefore.applyPatch patch = (movedAfter, none) := by
  have hp : movedForest.node ⟨0, 3⟩ = .ok _ := rfl
  have hc : movedForest.node ⟨0, 5⟩ = .ok _ := rfl
  exact between_roundTrip (Scripted.reachable_forest _) hp hc rfl rfl rfl rfl (by decide)

/-- **Round trip with blanks.** With unclaimed roots the patch always applies, and the surface
ends up with the new rendering unless all that was visible goes while the additions come in
several pieces, the first of them no placeholder. The placeholder that filled the gap then stays
behind. -/
theorem between_roundTrip_iff {f : Forest} (hf : f.Reachable) {p c : Handle} {old new : Node}
    {d e : Document} (hp : f.node p = .ok old) (hc : f.node c = .ok new)
    (next : new.born = old.born + 1) (hd : Document.ofRoot old = .ok d)
    (he : Document.ofRoot new = .ok e) (claim : f.claimedAt p = old.born) :
    ∃ patch last, Patch.between f p c = .ok patch ∧ d.applyPatch patch = (last, none) ∧
      last.content = e.content ++ Patch.remains f old new ∧
      (last = e ↔
        ¬ Patch.Strands f.settings (f.settled old new).old (f.settled old new).new) :=
  applyPatch_between hf.sound hp hc next (hf.sound.not_rootKept hp claim) hd he

/-- The surface of a lone text. -/
def textSurface : Document := ⟨.ofTokens [.text "x"], by decide, by decide⟩

/-- All visible text goes, and the new text comes in two pieces around a blank. -/
def splitForest : Forest :=
  Scripted.forest [.build (.branch "doc" [.leaf "x" none, .leaf "" (some "z")] (some "p")),
    .advance,
    .build (.branch "doc" [.leaf "a" none, .node (.label "z"), .leaf "b" none] (some "c"))]

def splitSurface : Document := ⟨.ofTokens [.text "ab"], by decide, by decide⟩

/-- The placeholder stays behind the two pieces. -/
theorem between_roundTrip_fails_of_blank : ¬ ∀ {f : Forest} {p c : Handle} {old new : Node}
    {d e : Document}, f.Reachable → f.node p = .ok old → f.node c = .ok new →
    new.born = old.born + 1 → Document.ofRoot old = .ok d → Document.ofRoot new = .ok e →
    f.claimedAt p = old.born → new.ReusesBlank →
    ∃ patch, Patch.between f p c = .ok patch ∧ d.applyPatch patch = (e, none) := by
  intro h
  have hp : splitForest.node ⟨0, 2⟩ = .ok _ := rfl
  have hc : splitForest.node ⟨0, 5⟩ = .ok _ := rfl
  have hpatch : Patch.between splitForest ⟨0, 2⟩ ⟨0, 5⟩ =
      .ok [.delete 0 1 (some (.bareBranch "paragraph")), .insert 0 (.ofTokens [.text "a"]),
        .insert 1 (.ofTokens [.text "b"])] := by
    rw [Patch.between_of_agree hp hc rfl (by decide)]
    rfl
  obtain ⟨patch, hbetween, happly⟩ := h (d := textSurface) (e := splitSurface)
    (Scripted.reachable_forest _) hp hc rfl rfl rfl rfl (by decide)
  obtain rfl := Except.ok.inj (hpatch.symm.trans hbetween)
  revert happly
  decide

/-- The first of the pieces is a placeholder, so it fills the gap. -/
def filledForest : Forest :=
  Scripted.forest [.build (.branch "doc" [.leaf "x" none, .leaf "" (some "z")] (some "p")),
    .advance, .build (.branch "doc" [.branch "paragraph" [] none, .node (.label "z"),
      .leaf "b" none] (some "c"))]

def filledSurface : Document :=
  ⟨.ofTokens [.opening "paragraph", .closing "paragraph", .text "b"], by decide, by decide⟩

theorem between_roundTrip_filled : ∃ patch,
    Patch.between filledForest ⟨0, 2⟩ ⟨0, 5⟩ = .ok patch ∧
      textSurface.applyPatch patch = (filledSurface, none) := by
  have hp : filledForest.node ⟨0, 2⟩ = .ok _ := rfl
  have hc : filledForest.node ⟨0, 5⟩ = .ok _ := rfl
  obtain ⟨patch, last, hpatch, hlast, -, hiff⟩ := between_roundTrip_iff (d := textSurface)
    (e := filledSurface) (Scripted.reachable_forest _) hp hc rfl rfl rfl rfl
  have hlast' : last = filledSurface := by
    rw [hiff, Forest.settled, settle_of_agree (by decide)]
    decide
  exact ⟨patch, hpatch, hlast' ▸ hlast⟩

end TreePatch
