import TreePatch.Proofs.Stamps
import TreePatch.Proofs.Watched

/-! Sessions whose edits may fail. A parse that keeps to the forest of its generation can be undone
however it ends, so an edit that fails leaves the session where it was, ready for the next
parse of the same generation, and an edit that succeeds gives the patch between the two roots. -/

namespace TreePatch

variable {π : Type}

namespace Session

/-- The timeline ends with the root, after the one a generation before if there is one; the root
is of the forest's generation or of the one before. -/
structure OnTrack (s : Session π) (root : Node) : Prop where
  raised : s.plot.forest.Raised
  node : s.plot.forest.node s.root = .ok root
  generation : s.plot.forest.generation = root.born ∨ s.plot.forest.generation = root.born + 1
  roots : s.timeline.roots = [s.root] ∨ ∃ h old, s.timeline.roots = [h, s.root] ∧
    s.plot.forest.node h = .ok old ∧ root.born = old.born + 1

variable {s : Session π} {root : Node}

theorem OnTrack.latest (h : s.OnTrack root) : s.timeline.latest = some s.root := by
  rcases h.roots with hr | ⟨k, old, hr, -⟩ <;> simp [Timeline.latest, hr]

theorem OnTrack.nextPlot (h : s.OnTrack root) : (s.nextPlot root).forest.Raised ∧
    (s.nextPlot root).forest.generation = root.born + 1 := by
  unfold Session.nextPlot
  split
  · rename_i hborn
    exact ⟨h.raised.advance, by rw [hborn]; rfl⟩
  · rename_i hborn
    rcases h.generation with hgen | hgen
    · exact absurd hgen.symm hborn
    · exact ⟨h.raised, hgen⟩

theorem nextPlot_entries (s : Session π) (root : Node) :
    (s.nextPlot root).forest.entries = s.plot.forest.entries ∧
      (s.nextPlot root).forest.arena = s.plot.forest.arena ∧
      (s.nextPlot root).forest.settings = s.plot.forest.settings := by
  unfold nextPlot
  split <;> exact ⟨rfl, rfl, rfl⟩

/-- The reason is what the parser gave, or why its root cannot be recorded. -/
theorem bind_record_eq_error (s : Session π) (result : Except Error Handle) (parser : π)
    (after : Plot) (reason : Error) :
    result.bind (s.record parser after) = .error reason ↔
      result = .error reason ∨
        ∃ h, result = .ok h ∧ s.timeline.push after.forest h = .error reason := by
  cases result with
  | error e => simp [Except.bind]
  | ok h =>
    simp only [Except.bind, record, bind, reduceCtorEq, Except.ok.injEq, false_or,
      exists_eq_left']
    cases s.timeline.push after.forest h <;> simp [pure, Except.pure]

/-- A failed edit leaves the session on track, in the generation of its next parse. -/
theorem OnTrack.undone (h : s.OnTrack root) {t : Session π} (hroot : t.root = s.root)
    (htimeline : t.timeline = s.timeline) (hplot : t.plot = s.nextPlot root) :
    t.OnTrack root := by
  obtain ⟨hraised, hgen⟩ := h.nextPlot
  refine ⟨hplot ▸ hraised, ?_, Or.inr (hplot ▸ hgen), ?_⟩
  · rw [hplot, hroot, s.node_nextPlot]
    exact h.node
  · simpa only [hplot, hroot, htimeline, s.node_nextPlot] using h.roots

end Session

variable [Parser π]

/-- What the parse does to the forest is a task of its own: it builds, and goes back to no saves
but its own. -/
def Parser.Tidy (parser : π) (plot : Plot) : Prop :=
  ∃ saves, Tended.Task ⟨plot, []⟩ ⟨(Parser.parse parser plot).2.2, saves⟩

namespace Parser

variable {parser : π} {plot : Plot}

/-- A tidy parse can be taken back as a whole. -/
theorem Tidy.restore (h : Tidy parser plot) (hf : plot.forest.Raised) :
    (parse parser plot).2.2.forest.restore plot.forest.save = .ok plot.forest := by
  obtain ⟨saves, htask⟩ := h
  exact hf.restore_of_task (htask.append [plot.forest.save])

theorem Tidy.raised (h : Tidy parser plot) (hf : plot.forest.Raised) :
    (parse parser plot).2.2.forest.Raised := by
  obtain ⟨saves, htask⟩ := h
  exact hf.task (htask.append [plot.forest.save])

theorem Tidy.frame (h : Tidy parser plot) :
    (parse parser plot).2.2.spare = plot.spare ∧
      (parse parser plot).2.2.forest.generation = plot.forest.generation := by
  obtain ⟨saves, htask⟩ := h
  exact ⟨htask.frame.1, htask.frame.2.2⟩

/-- A node outlasts a tidy parse. -/
theorem Tidy.node (h : Tidy parser plot) (hf : plot.forest.Raised) {k : Handle} {n : Node}
    (hn : plot.forest.node k = .ok n) : (parse parser plot).2.2.forest.node k = .ok n :=
  ((Forest.node_restore (h.restore hf) k n).mp hn).1

end Parser

namespace Session

/-- Sessions driven by any number of edits, whether they succeed or fail. -/
inductive Reached : Session π → Prop
  | start {parser : π} {arena spare : Nat} {settings : Settings} {s : Session π} :
      Parser.Tidy parser ⟨{ arena, settings }, spare⟩ →
      start parser ⟨{ arena, settings }, spare⟩ = .ok s → Reached s
  | edit {s : Session π} (e : Extent) (text : String) : Reached s →
      (∀ root, s.plot.forest.node s.root = .ok root →
        Parser.Tidy (Parser.edit s.parser e text) (s.nextPlot root)) →
      Reached (s.edit e text).2

variable {s : Session π} {root : Node}

/-- An edit as its parse goes on: what was parsed is recorded, or the session goes back. -/
theorem edit_eq (hr : s.plot.forest.node s.root = .ok root) (e : Extent) (text : String) :
    s.edit e text = match (s.parsed root e text).1.bind
        (s.record (s.parsed root e text).2.1 (s.parsed root e text).2.2) with
      | .ok next => (next.timeline.latestPatch next.plot.forest, next)
      | .error reason =>
        let (reason, left) := s.back (s.parsed root e text).2.1 (s.parsed root e text).2.2
          (s.nextPlot root).forest.save reason
        (.error reason, left) := by
  unfold edit
  rewrite [hr]
  rfl

/-- **An edit either leads on or leads back.** -/
theorem OnTrack.edit_cases (h : s.OnTrack root) (e : Extent) (text : String)
    (tidy : Parser.Tidy (Parser.edit s.parser e text) (s.nextPlot root)) :
    (∃ patch t new, s.edit e text = (.ok patch, t) ∧ t.OnTrack new ∧
      Patch.between t.plot.forest s.root t.root = .ok patch) ∨
    ∃ reason t, s.edit e text = (.error reason, t) ∧
      ((s.parsed root e text).1 = .error reason ∨ ∃ k, (s.parsed root e text).1 = .ok k ∧
        s.timeline.push (s.parsed root e text).2.2.forest k = .error reason) ∧
      t.root = s.root ∧ t.timeline = s.timeline ∧ t.plot = s.nextPlot root := by
  obtain ⟨hraised, hgen⟩ := h.nextPlot
  have hafter : (s.parsed root e text).2.2.forest.Raised := tidy.raised hraised
  obtain ⟨hspare, hagen⟩ := tidy.frame
  have hedit := edit_eq h.node e text
  cases hresult : (s.parsed root e text).1.bind
      (s.record (s.parsed root e text).2.1 (s.parsed root e text).2.2) with
  | ok next =>
    left
    rw [hresult] at hedit
    cases hparsed : (s.parsed root e text).1 with
    | error reason =>
      rw [hparsed] at hresult
      cases hresult
    | ok k =>
      rw [hparsed] at hresult
      obtain ⟨old, new, hold, hnew, hnext, rfl⟩ := record_eq_ok h.latest hresult
      have hroot : (s.parsed root e text).2.2.forest.node s.root = .ok root :=
        tidy.node hraised ((s.node_nextPlot root _).trans h.node)
      obtain rfl : root = old := Except.ok.inj (hroot.symm.trans hold)
      obtain ⟨patch, hpatch⟩ := hafter.stamps.1.between_ok hold hnew hnext
      refine ⟨patch, _, new, hedit.trans (Prod.ext hpatch rfl), ?_, hpatch⟩
      refine ⟨hafter, hnew, Or.inl ?_, Or.inr ⟨s.root, root, rfl, hold, hnext⟩⟩
      exact (hagen.trans hgen).trans hnext.symm
  | error reason =>
    right
    rw [hresult] at hedit
    have hrestore : (s.parsed root e text).2.2.forest.restore (s.nextPlot root).forest.save =
        .ok (s.nextPlot root).forest := tidy.restore hraised
    simp only [back, hrestore] at hedit
    refine ⟨reason, _, hedit, (bind_record_eq_error s _ _ _ reason).mp hresult, rfl, rfl, ?_⟩
    exact congrArg (Plot.mk (s.nextPlot root).forest) hspare

/-- The first root is of the first generation. -/
theorem onTrack_start {parser : π} {arena spare : Nat} {settings : Settings}
    (tidy : Parser.Tidy parser ⟨{ arena, settings }, spare⟩)
    (hs : start parser ⟨{ arena, settings }, spare⟩ = .ok s) : ∃ root, s.OnTrack root := by
  have hempty : Forest.Raised { arena, settings } := .empty arena settings
  have hraised := tidy.raised hempty
  have hgen := tidy.frame.2
  generalize hparse : Parser.parse parser ⟨{ arena, settings }, spare⟩ = out at hraised hgen
  obtain ⟨result, parser', after⟩ := out
  cases result with
  | error reason => simp [start, hparse, bind, Except.bind] at hs
  | ok h =>
    simp only [start, hparse, bind, Except.bind, Timeline.push] at hs
    cases hroot : after.forest.node h with
    | error reason => simp [hroot] at hs
    | ok root =>
      simp only [hroot, Timeline.latest, List.getLast?_nil, pure, Except.pure,
        Except.ok.injEq] at hs
      subst hs
      refine ⟨root, hraised, hroot, Or.inl ?_, Or.inl rfl⟩
      have hle : root.born ≤ after.forest.generation := hraised.stamps.1.born_le hroot
      rw [hgen] at hle ⊢
      exact (Nat.eq_zero_of_le_zero hle).symm

/-- **Every session is on track**, whatever became of its edits. -/
theorem Reached.onTrack (h : s.Reached) : ∃ root, s.OnTrack root := by
  induction h with
  | start tidy hs => exact onTrack_start tidy hs
  | @edit s e text _ tidy ih =>
    obtain ⟨root, htrack⟩ := ih
    rcases htrack.edit_cases e text (tidy root htrack.node) with
      ⟨patch, t, new, he, ht, -⟩ | ⟨reason, t, he, -, hroot, htimeline, hplot⟩
    · rw [he]
      exact ⟨new, ht⟩
    · rw [he]
      exact ⟨root, htrack.undone hroot htimeline hplot⟩

end Session

/-- **Edits that fail leave no trace.** In every session, however many of its edits failed, the
timeline ends with the root, alone or after a root one generation older, and the forest is in
the root's generation or in the next. An edit gives the patch from the root before it to the
root after it, or the error of the parser or of the timeline; then root, timeline, nodes and
stamps are as before, and the forest is ready for the generation after the root. -/
theorem edit_recovers (π : Type) [Parser π] {s : Session π} (h : s.Reached) :
    s.timeline.latest = some s.root ∧
    ∃ root, s.plot.forest.node s.root = .ok root ∧
      (s.plot.forest.generation = root.born ∨ s.plot.forest.generation = root.born + 1) ∧
      (s.timeline.roots = [s.root] ∨ ∃ k old, s.timeline.roots = [k, s.root] ∧
        s.plot.forest.node k = .ok old ∧ root.born = old.born + 1) ∧
      ∀ (e : Extent) (text : String),
        Parser.Tidy (Parser.edit s.parser e text) (s.nextPlot root) →
        (∀ patch t, s.edit e text = (.ok patch, t) →
          Patch.between t.plot.forest s.root t.root = .ok patch) ∧
        ∀ reason t, s.edit e text = (.error reason, t) →
          ((s.parsed root e text).1 = .error reason ∨ ∃ k, (s.parsed root e text).1 = .ok k ∧
            s.timeline.push (s.parsed root e text).2.2.forest k = .error reason) ∧
          t.root = s.root ∧ t.timeline = s.timeline ∧
          (∀ k, t.plot.forest.node k = s.plot.forest.node k ∧
            t.plot.forest.stamp k = s.plot.forest.stamp k) ∧
          t.plot.forest.size = s.plot.forest.size ∧
          t.plot.forest.generation = root.born + 1 ∧ t.plot = s.nextPlot root := by
  obtain ⟨root, htrack⟩ := h.onTrack
  refine ⟨htrack.latest, root, htrack.node, htrack.generation, htrack.roots, ?_⟩
  intro e text tidy
  rcases htrack.edit_cases e text tidy with
    ⟨patch, t, new, he, -, hpatch⟩ | ⟨reason, t, he, hreason, hroot, htimeline, hplot⟩
  · constructor
    · intro patch' t' he'
      obtain ⟨hp, rfl⟩ := Prod.mk.inj (he.symm.trans he')
      exact hpatch.trans hp
    · intro reason t' he'
      cases (Prod.mk.inj (he.symm.trans he')).1
  · constructor
    · intro patch t' he'
      cases (Prod.mk.inj (he.symm.trans he')).1
    · intro reason' t' he'
      obtain ⟨hr, rfl⟩ := Prod.mk.inj (he.symm.trans he')
      obtain rfl := Except.error.inj hr
      obtain ⟨hentries, harena, -⟩ := s.nextPlot_entries root
      have hfind (k : Handle) : t.plot.forest.find? k = s.plot.forest.find? k := by
        rw [hplot, Forest.find?, Forest.find?, hentries, harena]
      refine ⟨hreason, hroot, htimeline, fun k => ?_, ?_, ?_, hplot⟩
      · constructor
        · rw [Forest.node, Forest.node, Forest.entry, Forest.entry, hfind]
        · rw [Forest.stamp, Forest.stamp, Forest.entry, Forest.entry, hfind]
      · rw [hplot, Forest.size, Forest.size, hentries]
      · rw [hplot]
        exact htrack.nextPlot.2

/-- Builds a tree and a quote of its first leaf, and gives the first root whatever was built. -/
def stubbornScript : Scripted where
  script := ⟨[.build (.branch "doc" [.leaf "a" none] none),
    .build (.branch "quote" [.node (.index 0)] none)], .root (.index 1)⟩

def stubbornSession : Session Scripted where
  parser := { stubbornScript with parses := 1 }
  plot := ⟨Scripted.forest stubbornScript.script.statements, 1⟩
  timeline := ⟨[⟨0, 1⟩]⟩
  root := ⟨0, 1⟩

/-- An edit whose root comes too late, after it has claimed an old leaf, and one that succeeds. -/
theorem edit_recovers_stubborn :
    (∃ t : Session Scripted, stubbornSession.Reached ∧
      stubbornSession.edit ⟨0, 0⟩ "b" = (.error (.notSuccessive 0 0), t) ∧
      t.plot.forest.stamp ⟨0, 0⟩ = .ok ⟨0, 0, 0, 0⟩ ∧ t.plot.forest.generation = 1) ∧
    ∃ (t : Session Scripted) (patch : Patch), steadySession.Reached ∧
      steadySession.edit ⟨0, 0⟩ "b" = (.ok patch, t) ∧ t.root = ⟨0, 3⟩ ∧
      Patch.between t.plot.forest ⟨0, 1⟩ ⟨0, 3⟩ = .ok patch := by
  constructor
  · have task (plot : Plot) (k : Handle) : Tended.Task ⟨plot, []⟩ _ :=
      ((Tended.Task.refl.build (.leaf "a")).build (.branch "doc" [k])).build
        (.branch "quote" [⟨0, 0⟩])
    have hstart : Session.start stubbornScript ⟨{ arena := 0, settings := {} }, 1⟩ =
        .ok stubbornSession := rfl
    have hreached : stubbornSession.Reached := .start ⟨[], task _ ⟨0, 0⟩⟩ hstart
    obtain ⟨-, root, hroot, -, -, hedits⟩ := edit_recovers Scripted hreached
    obtain rfl := Except.ok.inj (hroot.symm.trans (rfl : stubbornSession.plot.forest.node _ = _))
    have hedit : stubbornSession.edit ⟨0, 0⟩ "b" = (.error (.notSuccessive 0 0), _) := rfl
    have herror := (hedits ⟨0, 0⟩ "b" ⟨[], task _ ⟨0, 3⟩⟩).2 _ _ hedit
    obtain ⟨-, -, -, hnodes, -, hgen, -⟩ := herror
    exact ⟨_, hreached, hedit, (hnodes ⟨0, 0⟩).2, hgen⟩
  · have task (plot : Plot) (k : Handle) : Tended.Task ⟨plot, []⟩ _ :=
      (Tended.Task.refl.build (.leaf "a")).build (.branch "doc" [k])
    have hstart : Session.start steadyScript ⟨{ arena := 0, settings := {} }, 1⟩ =
        .ok steadySession := rfl
    have hreached : steadySession.Reached := .start ⟨[], task _ ⟨0, 0⟩⟩ hstart
    have hold : steadyNext.plot.forest.node ⟨0, 1⟩ = .ok _ := rfl
    have hnew : steadyNext.plot.forest.node ⟨0, 3⟩ = .ok _ := rfl
    obtain ⟨patch, hpatch⟩ := (Scripted.reachable_forest _).sound.between_ok hold hnew rfl
    have hedit : steadySession.edit ⟨0, 0⟩ "b" = (.ok patch, steadyNext) :=
      Prod.ext hpatch rfl
    obtain ⟨-, root, hroot, -, -, hedits⟩ := edit_recovers Scripted hreached
    obtain rfl := Except.ok.inj (hroot.symm.trans (rfl : steadySession.plot.forest.node _ = _))
    have hbetween := (hedits ⟨0, 0⟩ "b" ⟨[], task _ ⟨0, 2⟩⟩).1 _ _ hedit
    exact ⟨_, patch, hreached, hedit, rfl, hbetween⟩

end TreePatch
