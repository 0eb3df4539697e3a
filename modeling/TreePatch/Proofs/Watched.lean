import TreePatch.Session
import TreePatch.Proofs.Persistence
import TreePatch.Proofs.Surface

/-! A surface that follows a session, from the placeholder through the joining patch and the
patch of every edit. It takes them all, and it shows the latest root as long as no root with
content has come after one without (`Watched.InStep`). -/

namespace TreePatch

variable {π : Type}

namespace Session

theorem push_eq_ok {t t' : Timeline} {f : Forest} {l h : Handle} (hl : t.latest = some l)
    (hp : t.push f h = .ok t') :
    ∃ old new, f.node l = .ok old ∧ f.node h = .ok new ∧ new.born = old.born + 1 ∧
      t' = ⟨t.roots ++ [h]⟩ := by
  simp only [Timeline.push, hl, bind, Except.bind] at hp
  split at hp
  · cases hp
  · rename_i new hnew
    split at hp
    · cases hp
    · rename_i old hold
      split at hp
      · rename_i hnext
        simp only [pure, Except.pure, Except.ok.injEq] at hp
        exact ⟨old, new, hold, hnew, hnext, hp.symm⟩
      · cases hp

/-- A recorded root follows the latest one, and the two are what is left of the timeline. -/
theorem record_eq_ok {s next : Session π} {parser : π} {after : Plot} {l h : Handle}
    (hl : s.timeline.latest = some l) (hr : s.record parser after h = .ok next) :
    ∃ old new, after.forest.node l = .ok old ∧ after.forest.node h = .ok new ∧
      new.born = old.born + 1 ∧ next = ⟨parser, after, ⟨[l, h]⟩, h⟩ := by
  simp only [record, bind, Except.bind] at hr
  split at hr
  · cases hr
  · rename_i t hpush
    obtain ⟨old, new, hold, hnew, hnext, rfl⟩ := push_eq_ok hl hpush
    simp only [pure, Except.pure, Except.ok.injEq] at hr
    refine ⟨old, new, hold, hnew, hnext, ?_⟩
    obtain ⟨front, hfront⟩ := List.getLast?_eq_some_iff.mp hl
    simp [← hr, Timeline.keepLatest, hfront]

theorem node_nextPlot (s : Session π) (root : Node) (h : Handle) :
    (s.nextPlot root).forest.node h = s.plot.forest.node h := by
  unfold nextPlot
  split <;> rfl

variable [Parser π]

/-- The parse an edit brings about. -/
def parsed (s : Session π) (root : Node) (e : Extent) (text : String) :
    Except Error Handle × π × Plot :=
  Parser.parse (Parser.edit s.parser e text) (s.nextPlot root)

/-- An edit records what was parsed or goes back. -/
theorem edit_cases (s : Session π) {root : Node} (hr : s.plot.forest.node s.root = .ok root)
    (e : Extent) (text : String) :
    (∃ h next, (s.parsed root e text).1 = .ok h ∧
        s.record (s.parsed root e text).2.1 (s.parsed root e text).2.2 h = .ok next ∧
        s.edit e text = (next.timeline.latestPatch next.plot.forest, next)) ∨
      ∃ reason left, s.edit e text = (.error reason, left) ∧ left.timeline = s.timeline ∧
        left.root = s.root ∧ (left.plot = (s.parsed root e text).2.2 ∨
          ∃ f, (s.parsed root e text).2.2.forest.restore (s.nextPlot root).forest.save = .ok f ∧
            left.plot = (s.parsed root e text).2.2.put f) := by
  obtain ⟨result, parser, after, hparse⟩ : ∃ result parser after,
      s.parsed root e text = (result, parser, after) := ⟨_, _, _, rfl⟩
  have hparse' : Parser.parse (Parser.edit s.parser e text) (s.nextPlot root) =
      (result, parser, after) := hparse
  have hback (reason : Error) :
      let left := s.back parser after (s.nextPlot root).forest.save reason
      left.2.timeline = s.timeline ∧ left.2.root = s.root ∧ (left.2.plot = after ∨
        ∃ f, after.forest.restore (s.nextPlot root).forest.save = .ok f ∧
          left.2.plot = after.put f) := by
    unfold back
    cases hrestore : after.forest.restore (s.nextPlot root).forest.save with
    | ok f => exact ⟨rfl, rfl, Or.inr ⟨f, rfl, rfl⟩⟩
    | error e => exact ⟨rfl, rfl, Or.inl rfl⟩
  simp only [edit, hr, hparse', hparse]
  cases result with
  | error reason => exact Or.inr ⟨_, _, rfl, hback reason⟩
  | ok h =>
    simp only [Except.bind]
    cases hrecord : s.record parser after h with
    | ok next => exact Or.inl ⟨h, next, rfl, hrecord, rfl⟩
    | error reason => exact Or.inr ⟨_, _, rfl, hback reason⟩

end Session

/-- A session with a surface that follows it. -/
structure Watched (π : Type) where
  session : Session π
  /-- The saves that the parser may have at hand. -/
  saves : List Save
  surface : Document
  /-- The errors of the patches that the surface refused. -/
  faults : List Error
  /-- How often a root with content has come after one without. -/
  gaps : Nat

/-- So many placeholders. -/
def placeholders (settings : Settings) : Nat → Fragment
  | 0 => .empty
  | n + 1 => .bareBranch settings.placeholderKind ++ placeholders settings n

theorem matched_placeholders (settings : Settings) (n : Nat) :
    (placeholders settings n).Matched := by
  induction n with
  | zero => exact Fragment.matched_empty
  | succ n ih => exact (Fragment.matched_bareBranch _).append ih

theorem size_placeholders (settings : Settings) (n : Nat) :
    (placeholders settings n).size = 2 * n := by
  induction n with
  | zero => rfl
  | succ n ih =>
    rw [placeholders, Fragment.size_append, Fragment.size_bareBranch, ih]
    omega

theorem gap_append_placeholders (settings : Settings) (old new : Node) (n : Nat) :
    Patch.gap settings old new ++ placeholders settings n = placeholders settings
      (n + if old.content.isEmpty = true ∧ new.content.isEmpty = false then 1 else 0) := by
  unfold Patch.gap
  split
  · rfl
  · exact Fragment.empty_append _

namespace Watched

/-- The surface takes a patch of the session, or as much of it as it can. -/
def take (surface : Document) (faults : List Error) (patch : Patch) (session : Session π)
    (saves : List Save) (gaps : Nat) : Watched π :=
  ⟨session, saves, (surface.applyPatch patch).1, faults ++ (surface.applyPatch patch).2.toList,
    gaps⟩

/-- What holds of a surface that follows a session. -/
structure InStep (settings : Settings) (w : Watched π) : Prop where
  tended : Tended.Sound ⟨w.session.plot, w.saves⟩
  settings_eq : w.session.plot.forest.settings = settings
  latest : w.session.timeline.latest = some w.session.root
  faults : w.faults = []
  shows : ∀ root, w.session.plot.forest.node w.session.root = .ok root →
    w.surface.content = root.content ++ root.padding settings ++ placeholders settings w.gaps

theorem take_of_takes {surface : Document} {patch : Patch} {f g : Fragment}
    (h : patch.Takes f g) (hf : surface.content = f) (session : Session π) (saves : List Save)
    (gaps : Nat) :
    ∃ d : Document, take surface [] patch session saves gaps = ⟨session, saves, d, [], gaps⟩ ∧
      d.content = g := by
  obtain ⟨d, hd, hg⟩ := h surface hf
  exact ⟨d, by simp [take, hd], hg⟩

variable {w : Watched π} {old : Node}

/-- Before a parse the latest root is of an earlier generation. -/
theorem InStep.nextPlot (h : w.InStep settings)
    (hold : w.session.plot.forest.node w.session.root = .ok old) :
    Tended.Sound ⟨w.session.nextPlot old, w.saves⟩ ∧
      Tended.Keeps ⟨w.session.nextPlot old, w.saves⟩ w.session.root old ∧
      (w.session.nextPlot old).forest.settings = settings := by
  unfold Session.nextPlot
  split
  · rename_i hborn
    refine ⟨h.tended.advance, Or.inl ⟨hold, ?_⟩, h.settings_eq⟩
    exact Nat.lt_succ_of_le (Nat.le_of_eq hborn)
  · rename_i hborn
    refine ⟨h.tended, Or.inl ⟨hold, ?_⟩, h.settings_eq⟩
    exact Nat.lt_of_le_of_ne (h.tended.forest.born_le hold) hborn

variable [Parser π]

/-- A surface follows a session from its start. The parser does to the forest what a run does;
no latest root has been claimed when the next comes, and no root reuses a blank. -/
inductive Reached (settings : Settings) : Watched π → Prop
  | start {parser : π} {arena spare : Nat} {session : Session π} {saves : List Save}
      {patch : Patch} :
      arena < spare →
      Tended.Run true ⟨⟨{ arena, settings }, spare⟩, []⟩
        ⟨(Parser.parse parser ⟨{ arena, settings }, spare⟩).2.2, saves⟩ →
      Session.start parser ⟨{ arena, settings }, spare⟩ = .ok session →
      session.joinPatch = .ok patch →
      Reached settings (take (.placeholder settings) [] patch session saves 0)
  | edit {w : Watched π} {e : Extent} {text : String} {old new : Node} {session : Session π}
      {saves : List Save} {patch : Patch} :
      Reached settings w →
      w.session.plot.forest.node w.session.root = .ok old →
      Tended.Run true ⟨w.session.nextPlot old, w.saves⟩
        ⟨(w.session.parsed old e text).2.2, saves⟩ →
      w.session.edit e text = (.ok patch, session) →
      session.plot.forest.node session.root = .ok new →
      session.plot.forest.claimedAt w.session.root = old.born →
      ¬ new.ReusesBlank →
      Reached settings (take w.surface w.faults patch session saves
        (w.gaps + if old.content.isEmpty = true ∧ new.content.isEmpty = false then 1 else 0))
  | fail {w : Watched π} {e : Extent} {text : String} {old : Node} {session : Session π}
      {saves : List Save} {reason : Error} :
      Reached settings w →
      w.session.plot.forest.node w.session.root = .ok old →
      Tended.Run true ⟨w.session.nextPlot old, w.saves⟩
        ⟨(w.session.parsed old e text).2.2, saves⟩ →
      w.session.edit e text = (.error reason, session) →
      Reached settings { w with session, saves }

/-- The joining patch shows the first root. -/
theorem inStep_start {parser : π} {arena spare : Nat} {session : Session π} {saves : List Save}
    {patch : Patch} (hlt : arena < spare)
    (hrun : Tended.Run true ⟨⟨{ arena, settings }, spare⟩, []⟩
      ⟨(Parser.parse parser ⟨{ arena, settings }, spare⟩).2.2, saves⟩)
    (hstart : Session.start parser ⟨{ arena, settings }, spare⟩ = .ok session)
    (hjoin : session.joinPatch = .ok patch) :
    InStep settings (take (.placeholder settings) [] patch session saves 0) := by
  have hsound := hrun.sound (Tended.sound_start settings hlt)
  have hset := hrun.settings
  generalize hparse : Parser.parse parser ⟨{ arena, settings }, spare⟩ = out
    at hrun hstart hsound hset
  obtain ⟨result, parser', after⟩ := out
  cases result with
  | error reason => simp [Session.start, hparse, bind, Except.bind] at hstart
  | ok h =>
    simp only [Session.start, hparse, bind, Except.bind, Timeline.push] at hstart
    cases hroot : after.forest.node h with
    | error reason => simp [hroot] at hstart
    | ok root =>
      simp only [hroot, Timeline.latest, List.getLast?_nil, pure, Except.pure,
        Except.ok.injEq] at hstart
      subst hstart
      obtain ⟨patch', hpatch, htakes⟩ := takes_populate hroot
      simp only [Session.joinPatch, hpatch, Except.ok.injEq] at hjoin
      subst hjoin
      have hplace : (Document.placeholder settings).content =
          .bareBranch after.forest.settings.placeholderKind := by
        rw [show after.forest.settings = settings from hset]
        rfl
      obtain ⟨d, hd, hcontent⟩ := take_of_takes htakes hplace
        (⟨parser', after, ⟨[h]⟩, h⟩ : Session π) saves 0
      rw [hd]
      refine ⟨hsound, hset, rfl, rfl, fun n hn => ?_⟩
      obtain rfl : root = n := Except.ok.inj (hroot.symm.trans hn)
      rw [hcontent, show after.forest.settings = settings from hset, placeholders,
        Fragment.append_empty]

/-- An edit that gives a patch leads from one root to the next. -/
theorem InStep.edit {e : Extent} {text : String} {new : Node} {session : Session π}
    {saves : List Save} {patch : Patch} (h : w.InStep settings)
    (hold : w.session.plot.forest.node w.session.root = .ok old)
    (hrun : Tended.Run true ⟨w.session.nextPlot old, w.saves⟩
      ⟨(w.session.parsed old e text).2.2, saves⟩)
    (hedit : w.session.edit e text = (.ok patch, session))
    (hnew : session.plot.forest.node session.root = .ok new)
    (claim : session.plot.forest.claimedAt w.session.root = old.born)
    (blank : ¬ new.ReusesBlank) :
    InStep settings (take w.surface w.faults patch session saves
      (w.gaps + if old.content.isEmpty = true ∧ new.content.isEmpty = false then 1 else 0)) := by
  obtain ⟨hbefore, hkeeps, hset⟩ := h.nextPlot hold
  have hsound := hrun.sound hbefore
  have hkept := hrun.keeps_node hbefore hkeeps
  rcases w.session.edit_cases hold e text with ⟨root, next, -, hrecord, he⟩ | ⟨reason, left, he, -⟩
  · rw [hedit, Prod.mk.injEq] at he
    obtain ⟨hpatch, rfl⟩ := he
    obtain ⟨old', new', hold', hnew', hnext, hsession⟩ := Session.record_eq_ok h.latest hrecord
    obtain rfl : old' = old := hkept.eq_of_node hold'
    subst hsession
    obtain rfl : new' = new := Except.ok.inj (hnew'.symm.trans hnew)
    have hset' := hrun.settings.trans hset
    have hforest : (w.session.parsed old' e text).2.2.forest.Sound := hsound.forest
    obtain ⟨patch', hbetween, htakes⟩ := hforest.takes_surface hold' hnew' hnext
      (hforest.not_rootKept hold' claim) blank (matched_placeholders settings w.gaps)
    obtain rfl : patch = patch' := Except.ok.inj (hpatch.trans hbetween)
    rw [show (w.session.parsed old' e text).2.2.forest.settings = settings from hset'] at htakes
    obtain ⟨d, hd, hcontent⟩ := take_of_takes htakes (h.shows _ hold) _ saves
      (w.gaps + if old'.content.isEmpty = true ∧ new'.content.isEmpty = false then 1 else 0)
    rw [h.faults, hd]
    refine ⟨hsound, hset', rfl, rfl, fun n hn => ?_⟩
    obtain rfl : new' = n := Except.ok.inj (hnew.symm.trans hn)
    rw [hcontent, Fragment.append_assoc _ (Patch.gap _ _ _), gap_append_placeholders]
  · rw [hedit] at he
    cases (Prod.mk.inj he).1

/-- An edit that fails leaves root and surface as they were. -/
theorem InStep.fail {e : Extent} {text : String} {session : Session π} {saves : List Save}
    {reason : Error} (h : w.InStep settings)
    (hold : w.session.plot.forest.node w.session.root = .ok old)
    (hrun : Tended.Run true ⟨w.session.nextPlot old, w.saves⟩
      ⟨(w.session.parsed old e text).2.2, saves⟩)
    (hedit : w.session.edit e text = (.error reason, session)) :
    InStep settings { w with session, saves } := by
  obtain ⟨hbefore, hkeeps, hset⟩ := h.nextPlot hold
  have hsound := hrun.sound hbefore
  have hkept := hrun.keeps_node hbefore hkeeps
  have hset' := hrun.settings.trans hset
  rcases w.session.edit_cases hold e text with
    ⟨root, next, -, hrecord, he⟩ | ⟨reason', left, he, htimeline, hroot, hplot⟩
  · -- what was recorded is one generation on, so the patch cannot have failed
    rw [hedit, Prod.mk.injEq] at he
    obtain ⟨hpatch, rfl⟩ := he
    obtain ⟨old', new', hold', hnew', hnext, hsession⟩ := Session.record_eq_ok h.latest hrecord
    subst hsession
    obtain ⟨patch, hbetween⟩ := hsound.forest.between_ok hold' hnew' hnext
    cases hpatch.trans hbetween
  · rw [hedit, Prod.mk.injEq] at he
    obtain ⟨-, rfl⟩ := he
    have hleft : Tended.Sound ⟨session.plot, saves⟩ ∧
        Tended.Keeps ⟨session.plot, saves⟩ w.session.root old ∧
        session.plot.forest.settings = settings := by
      rcases hplot with hplot | ⟨f, hrestore, hplot⟩
      · rw [hplot]
        exact ⟨hsound, hkept, hset'⟩
      · rw [hplot]
        refine ⟨hsound.restore hrestore, hkept.restore hrestore fun _ _ => ?_, ?_⟩
        · rw [← Session.node_nextPlot w.session old] at hold
          exact Forest.index_lt_size hold
        · exact (Forest.restore_frame hrestore).2.2.2.2.trans hset'
    refine ⟨hleft.1, hleft.2.2, by rw [htimeline, hroot]; exact h.latest, h.faults, fun n hn => ?_⟩
    rw [hroot] at hn
    obtain rfl : n = old := hleft.2.1.eq_of_node hn
    exact h.shows _ hold

/-- **What holds of every surface that follows a session.** -/
theorem Reached.inStep (h : Reached settings w) : w.InStep settings := by
  induction h with
  | start hlt hrun hstart hjoin => exact inStep_start hlt hrun hstart hjoin
  | edit _ hold hrun hedit hnew claim blank ih => exact ih.edit hold hrun hedit hnew claim blank
  | fail _ hold hrun hedit ih => exact ih.fail hold hrun hedit

end Watched

/-- **Surfaces over roots without content.** The patch between two unclaimed roots always
applies to the surface of the first, and gives that of the second unless only the second has
content. So a surface that follows a session refuses no patch, and shows the latest root and
one placeholder for each time that a root with content has come after one without. -/
theorem surface_follows_iff (π : Type) [Parser π] (settings : Settings) :
    (∀ {f : Forest} {p c : Handle} {old new : Node}, f.Reachable → f.settings = settings →
      f.node p = .ok old → f.node c = .ok new → new.born = old.born + 1 →
      f.claimedAt p = old.born → ¬ new.ReusesBlank →
      ∃ patch last, Patch.between f p c = .ok patch ∧
        (Document.surface settings old).applyPatch patch = (last, none) ∧
        last.content = (Document.surface settings new).content ++ Patch.gap settings old new ∧
        (last = Document.surface settings new ↔
          ¬ (old.content.isEmpty = true ∧ new.content.isEmpty = false))) ∧
    (∀ {w : Watched π}, w.Reached settings →
      w.faults = [] ∧ ∀ root, w.session.plot.forest.node w.session.root = .ok root →
        w.surface.content =
          (Document.surface settings root).content ++ placeholders settings w.gaps ∧
        (w.surface = Document.surface settings root ↔ w.gaps = 0)) := by
  constructor
  · rintro f p c old new hf rfl hp hc next claim blank
    have hs := hf.sound
    obtain ⟨patch, hpatch, htakes⟩ := hs.takes_surface hp hc next (hs.not_rootKept hp claim) blank
      Fragment.matched_empty
    simp only [Fragment.append_empty] at htakes
    obtain ⟨last, hlast, hcontent⟩ := htakes _ (Document.content_surface f.settings old)
    rw [← Document.content_surface] at hcontent
    refine ⟨patch, last, hpatch, hlast, hcontent, ?_⟩
    rw [← Patch.gap_eq_empty_iff f.settings old new]
    constructor
    · rintro rfl
      have hsize := congrArg Fragment.size hcontent
      rw [Fragment.size_append] at hsize
      exact Fragment.eq_empty_of_size _ (by omega)
    · intro hgap
      exact Document.ext (by rw [hcontent, hgap, Fragment.append_empty])
  · intro w hw
    have h := hw.inStep
    refine ⟨h.faults, fun root hroot => ?_⟩
    have hshows := h.shows root hroot
    rw [← Document.content_surface] at hshows
    refine ⟨hshows, ?_⟩
    constructor
    · intro he
      have hsize := congrArg Fragment.size hshows
      rw [he, Fragment.size_append, size_placeholders] at hsize
      omega
    · intro hgaps
      exact Document.ext (by rw [hshows, hgaps, placeholders, Fragment.append_empty])

/-- A root without content, and then one with a paragraph. -/
def filledLater : Forest :=
  Scripted.forest [.build (.branch "doc" [] none), .advance,
    .build (.branch "doc" [.branch "paragraph" [.leaf "a" none] none] none)]

/-- The placeholder stays behind the first paragraph. -/
theorem surface_follows_fails_of_empty : ¬ ∀ {f : Forest} {p c : Handle} {old new : Node},
    f.Reachable → f.node p = .ok old → f.node c = .ok new → new.born = old.born + 1 →
    f.claimedAt p = old.born → ¬ new.ReusesBlank →
    (old.content.isEmpty = true ∨ new.content.isEmpty = true) →
    ∃ patch, Patch.between f p c = .ok patch ∧
      (Document.surface f.settings old).applyPatch patch =
        (Document.surface f.settings new, none) := by
  intro h
  have hp : filledLater.node ⟨0, 0⟩ = .ok _ := rfl
  have hc : filledLater.node ⟨0, 3⟩ = .ok _ := rfl
  have hpatch : Patch.between filledLater ⟨0, 0⟩ ⟨0, 3⟩ =
      .ok [.insert 0 (.ofTokens [.opening "paragraph", .text "a", .closing "paragraph"])] := by
    rw [Patch.between_of_agree hp hc rfl (by decide)]
    rfl
  obtain ⟨patch, hbetween, happly⟩ := h (Scripted.reachable_forest _) hp hc rfl rfl (by decide)
    (by decide)
  obtain rfl := Except.ok.inj (hpatch.symm.trans hbetween)
  revert happly
  decide

/-- A tree that every parse builds anew. -/
def steadyTree : Blueprint := .branch "doc" [.leaf "a" none] (some "r")

def steadyScript : Scripted := { script := ⟨[.build steadyTree], .root (.label "r")⟩ }

def steadySession : Session Scripted where
  parser := { steadyScript with labels := [("r", ⟨0, 1⟩)], parses := 1 }
  plot := ⟨Scripted.forest [.build steadyTree], 1⟩
  timeline := ⟨[⟨0, 1⟩]⟩
  root := ⟨0, 1⟩

/-- The same session after one edit. -/
def steadyNext : Session Scripted where
  parser := { steadyScript with
    labels := [("r", ⟨0, 3⟩)], edits := [(⟨0, 0⟩, "b")], parses := 2 }
  plot := ⟨Scripted.forest [.build steadyTree, .advance, .build steadyTree], 1⟩
  timeline := ⟨[⟨0, 1⟩, ⟨0, 3⟩]⟩
  root := ⟨0, 3⟩

theorem surface_follows_steady :
    (∃ patch last, Patch.between filledLater ⟨0, 0⟩ ⟨0, 3⟩ = .ok patch ∧
      (Document.placeholder {}).applyPatch patch = (last, none) ∧
      last.content ≠ .ofTokens [.opening "paragraph", .text "a", .closing "paragraph"]) ∧
    ∃ w : Watched Scripted, w.Reached {} ∧ w.session = steadyNext ∧ w.faults = [] ∧
      ∀ root, w.session.plot.forest.node w.session.root = .ok root →
        w.surface = Document.surface {} root := by
  constructor
  · have hp : filledLater.node ⟨0, 0⟩ = .ok _ := rfl
    have hc : filledLater.node ⟨0, 3⟩ = .ok _ := rfl
    obtain ⟨patch, last, hpatch, hlast, -, hiff⟩ := (surface_follows_iff Scripted {}).1
      (Scripted.reachable_forest _) rfl hp hc rfl rfl (by decide)
    refine ⟨patch, last, hpatch, hlast, fun h => ?_⟩
    have hsurface := hiff.mp (Document.ext (h.trans rfl))
    exact hsurface (by decide)
  · have hstart : Session.start steadyScript ⟨{ arena := 0, settings := {} }, 1⟩ =
        .ok steadySession := rfl
    have hjoin : steadySession.joinPatch = .ok [.delete 0 2 (some (.ofTokens [.text "a"]))] := rfl
    have hfirst : Watched.Reached {} _ :=
      .start Nat.zero_lt_one (Scripted.run_parse true _ ⟨_, []⟩) hstart hjoin
    have hold : steadySession.plot.forest.node ⟨0, 1⟩ = .ok _ := rfl
    have hnew : steadyNext.plot.forest.node ⟨0, 3⟩ = .ok _ := rfl
    have hpatch : steadyNext.timeline.latestPatch steadyNext.plot.forest =
        .ok [.delete 0 1 (some (.ofTokens [.text "a"]))] := by
      have hp : steadyNext.plot.forest.node ⟨0, 1⟩ = .ok _ := rfl
      exact (Patch.between_of_agree hp hnew rfl (by decide)).trans rfl
    have hedit : steadySession.edit ⟨0, 0⟩ "b" =
        (.ok [.delete 0 1 (some (.ofTokens [.text "a"]))], steadyNext) := by
      rw [← hpatch]
      rfl
    have hrun (root : Node) : Tended.Run true ⟨steadySession.nextPlot root, []⟩
        ⟨(steadySession.parsed root ⟨0, 0⟩ "b").2.2, []⟩ :=
      Scripted.run_parse true (steadySession.parser.edit ⟨0, 0⟩ "b") ⟨_, []⟩
    have hsecond := hfirst.edit hold (hrun _) hedit hnew rfl (by decide)
    have hfollows := (surface_follows_iff Scripted {}).2 hsecond
    exact ⟨_, hsecond, rfl, hfollows.1, fun root hroot => (hfollows.2 root hroot).2.mpr rfl⟩

end TreePatch
