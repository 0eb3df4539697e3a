import TreePatch.Proofs.Populate
import TreePatch.Proofs.Stamps
import TreePatch.Proofs.Watched

/-! A forest and a timeline of its roots, worked on in any order. The roots recorded stay one
generation apart (`Chronicle.Orderly`), so each can be led to the next at any time. What is built
later may claim nodes of the older trees once more; the patches then come out differently, and
one after the other they still lead from the oldest root to the latest. -/

namespace TreePatch

/-- One thing done to a forest or to the timeline of its roots. -/
inductive Deed where
  | build (layer : Layer)
  | advance
  | push (root : Handle)
  | keepLatest (count : Nat)
  deriving DecidableEq, Repr

structure Chronicle where
  forest : Forest
  timeline : Timeline := {}
  deriving Repr

namespace Chronicle

def perform (c : Chronicle) : Deed → Except Error Chronicle
  | .build layer => do
    let (_, f) ← c.forest.build layer
    return { c with forest := f }
  | .advance => return { c with forest := c.forest.advance }
  | .push root => do
    let t ← c.timeline.push c.forest root
    return { c with timeline := t }
  | .keepLatest count => return { c with timeline := c.timeline.keepLatest count }

/-- Does what can be done. A deed that fails leaves everything as it is. -/
def attempt (c : Chronicle) (deed : Deed) : Chronicle :=
  match c.perform deed with
  | .ok next => next
  | .error _ => c

/-- Where deeds lead to from an empty forest without roots. -/
def after (arena : Nat) (settings : Settings) (deeds : List Deed) : Chronicle :=
  deeds.foldl attempt { forest := { arena, settings } }

end Chronicle

/-- The patches from each root to the next, one after the other. -/
def Patch.through (f : Forest) : List Handle → Except Error Patch
  | [] => .ok []
  | [_] => .ok []
  | p :: c :: rest => do
    let first ← between f p c
    let later ← through f (c :: rest)
    return first ++ later

namespace Forest

variable {f g : Forest} {start : Generation} {roots : List Handle} {r : Handle} {root : Node}

/-! ## Roots of ascending generations -/

/-- The roots are in the forest, and their generations count up from the first one. -/
def Ascending (f : Forest) (start : Generation) (roots : List Handle) : Prop :=
  ∀ (i : Nat) r, roots[i]? = some r → ∃ n, f.node r = .ok n ∧ n.born = start + i

theorem Ascending.mono (h : f.Ascending start roots)
    (keep : ∀ k n, f.node k = .ok n → g.node k = .ok n) : g.Ascending start roots := by
  intro i r hr
  obtain ⟨n, hn, hborn⟩ := h i r hr
  exact ⟨n, keep r n hn, hborn⟩

theorem Ascending.drop (h : f.Ascending start roots) (count : Nat) :
    f.Ascending (start + count) (roots.drop count) := by
  intro i r hr
  rw [List.getElem?_drop] at hr
  obtain ⟨n, hn, hborn⟩ := h _ r hr
  exact ⟨n, hn, hborn.trans (Nat.add_assoc _ _ _).symm⟩

theorem Ascending.tail (h : f.Ascending start (r :: roots)) :
    f.Ascending (start + 1) roots :=
  h.drop 1

theorem Ascending.append (h : f.Ascending start roots) (hr : f.node r = .ok root)
    (next : root.born = start + roots.length) : f.Ascending start (roots ++ [r]) := by
  intro i k hk
  by_cases hi : i < roots.length
  · rw [List.getElem?_append_left hi] at hk
    exact h i k hk
  · rw [List.getElem?_append_right (Nat.le_of_not_lt hi)] at hk
    obtain ⟨hz, rfl⟩ : i - roots.length = 0 ∧ r = k := by
      simpa [List.getElem?_singleton] using hk
    obtain rfl : i = roots.length := by omega
    exact ⟨root, hr, next⟩

theorem Ascending.latest {t : Timeline} (h : f.Ascending start t.roots) {last : Handle}
    (hl : t.latest = some last) :
    ∃ n, f.node last = .ok n ∧ n.born + 1 = start + t.roots.length := by
  rw [Timeline.latest, List.getLast?_eq_getElem?] at hl
  obtain ⟨n, hn, hborn⟩ := h _ _ hl
  have hlen : t.roots.length ≠ 0 := by
    intro hz
    rw [List.eq_nil_of_length_eq_zero hz] at hl
    cases hl
  refine ⟨n, hn, ?_⟩
  rw [hborn, Nat.add_assoc, Nat.sub_add_cancel (Nat.pos_of_ne_zero hlen)]

/-- What is recorded comes one generation after the latest, or first. -/
theorem Ascending.push {t u : Timeline} (h : f.Ascending start t.roots)
    (hp : t.push f r = .ok u) :
    u.roots = t.roots ++ [r] ∧ ∃ start, f.Ascending start u.roots := by
  cases hl : t.latest with
  | none =>
    have hroots : t.roots = [] := List.getLast?_eq_none_iff.mp hl
    cases hn : f.node r with
    | error e => simp [Timeline.push, hn, bind, Except.bind] at hp
    | ok n =>
      simp only [Timeline.push, hn, hl, bind, Except.bind, pure, Except.pure,
        Except.ok.injEq] at hp
      subst hp
      refine ⟨by rw [hroots]; rfl, n.born, ?_⟩
      have hnone : f.Ascending n.born [] := by simp [Ascending]
      exact hnone.append hn rfl
  | some last =>
    obtain ⟨old, new, hold, hnew, hnext, rfl⟩ := Session.push_eq_ok hl hp
    obtain ⟨n, hn, hborn⟩ := h.latest hl
    obtain rfl := Except.ok.inj (hold.symm.trans hn)
    exact ⟨rfl, start, h.append hnew (hnext.trans hborn)⟩

/-- Between neighbours there is a patch. -/
theorem Sound.between_ok_of_ascending (hf : f.Sound) {before after : List Handle} {p q : Handle}
    (h : f.Ascending start (before ++ p :: q :: after)) :
    ∃ patch, Patch.between f p q = .ok patch := by
  obtain ⟨old, hold, hborn⟩ := h before.length p (by simp)
  obtain ⟨new, hnew, hborn'⟩ := h (before.length + 1) q (by simp)
  refine hf.between_ok hold hnew ?_
  rw [hborn', hborn, Nat.add_assoc]

/-! ## Roots that a surface can be led through -/

/-- The root has content, no branch of a later generation has it as a child, and it reuses no
blank. -/
structure Passable (f : Forest) (r : Handle) (root : Node) : Prop where
  content : root.content.isEmpty = false
  unclaimed : ∀ k b, f.node k = .ok b → r ∈ b.layer.children → b.born ≤ root.born
  blank : ¬ root.ReusesBlank

/-- The entries tell whether a later branch has the root as a child. -/
theorem passable_of_entries (content : root.content.isEmpty = false)
    (unclaimed : ∀ e ∈ f.entries.toList, r ∈ e.node.layer.children → e.node.born ≤ root.born)
    (blank : ¬ root.ReusesBlank) : f.Passable r root := by
  refine ⟨content, fun k b hb hchild => ?_, blank⟩
  obtain ⟨-, hentry⟩ := (node_eq_ok_iff_index f k b).mp hb
  obtain ⟨e, he, rfl⟩ := Option.map_eq_some_iff.mp hentry
  exact unclaimed e (Array.mem_toList_iff.mpr (Array.mem_of_getElem? he)) hchild

theorem Claimed.claimedAt_eq_born (hc : f.Claimed) (hr : f.node r = .ok root)
    (unclaimed : ∀ k b, f.node k = .ok b → r ∈ b.layer.children → b.born ≤ root.born) :
    f.claimedAt r = root.born :=
  Nat.le_antisymm (hc.claimedAt_le hr (Nat.le_refl _) unclaimed) (hc.born_le_claimedAt hr)

/-- A surface with content is led on to that of the next root. -/
theorem Sound.applyPatch_surface (hf : f.Sound) {p c : Handle} {old new : Node}
    (hp : f.node p = .ok old) (hc : f.node c = .ok new) (next : new.born = old.born + 1)
    (content : old.content.isEmpty = false) (claim : f.claimedAt p = old.born)
    (blank : ¬ new.ReusesBlank) :
    ∃ patch, Patch.between f p c = .ok patch ∧
      (Document.surface f.settings old).applyPatch patch =
        (Document.surface f.settings new, none) := by
  obtain ⟨patch, hpatch, htakes⟩ := hf.takes_surface hp hc next (hf.not_rootKept hp claim) blank
    Fragment.matched_empty
  obtain ⟨d, happly, hd⟩ := htakes (Document.surface f.settings old) (by
    rw [Document.content_surface, Fragment.append_empty])
  have hgap : Patch.gap f.settings old new = .empty := by
    simp [Patch.gap_eq_empty_iff, content]
  obtain rfl : d = Document.surface f.settings new := by
    refine Document.ext ?_
    rw [hd, hgap, Fragment.append_empty, Fragment.append_empty, Document.content_surface]
  exact ⟨patch, hpatch, happly⟩

/-- Through all roots of a row: the induction goes from each to the next. -/
theorem Sound.applyPatch_through (hf : f.Sound) (hc : f.Claimed) {first : Handle}
    (h : f.Ascending start (first :: roots))
    (pass : ∀ r ∈ first :: roots, ∀ n, f.node r = .ok n → f.Passable r n) :
    ∃ old new patch, f.node first = .ok old ∧
      f.node ((first :: roots).getLast (List.cons_ne_nil _ _)) = .ok new ∧
      Patch.through f (first :: roots) = .ok patch ∧
      (Document.surface f.settings old).applyPatch patch =
        (Document.surface f.settings new, none) := by
  induction roots generalizing first start with
  | nil =>
    obtain ⟨n, hn, -⟩ := h 0 first rfl
    exact ⟨n, n, [], hn, hn, rfl, rfl⟩
  | cons c rest ih =>
    obtain ⟨old, hold, hborn⟩ := h 0 first rfl
    obtain ⟨mid, new, later, hmid, hnew, hlater, happly'⟩ :=
      ih h.tail fun r hr => pass r (List.mem_cons_of_mem _ hr)
    obtain ⟨mid', hmid', hborn'⟩ := h 1 c rfl
    obtain rfl := Except.ok.inj (hmid.symm.trans hmid')
    have hold' := pass first List.mem_cons_self old hold
    have hmid' := pass c (List.mem_cons_of_mem _ List.mem_cons_self) mid hmid
    have next : mid.born = old.born + 1 := by rw [hborn', hborn]
    obtain ⟨patch, hpatch, happly⟩ := hf.applyPatch_surface hold hmid next hold'.content
      (hc.claimedAt_eq_born hold hold'.unclaimed) hmid'.blank
    refine ⟨old, new, patch ++ later, hold, by simpa using hnew, ?_, ?_⟩
    · simp [Patch.through, hpatch, hlater, bind, Except.bind, pure, Except.pure]
    · rw [Document.applyPatch_append later happly, happly']

end Forest

namespace Chronicle

variable {c next : Chronicle} {deed : Deed}

/-- The forest has never gone back, and the roots recorded are in it, one generation apart. -/
structure Orderly (c : Chronicle) : Prop where
  raised : c.forest.Raised
  ascending : ∃ start, c.forest.Ascending start c.timeline.roots

theorem Orderly.perform (hc : c.Orderly) (hp : c.perform deed = .ok next) : next.Orderly := by
  obtain ⟨hraised, start, hroots⟩ := hc
  cases deed with
  | build layer =>
    simp only [Chronicle.perform, bind, Except.bind] at hp
    split at hp
    · cases hp
    · rename_i result hb
      obtain ⟨h, f⟩ := result
      obtain ⟨m, hg, -, -⟩ := Forest.build_cases hb
      simp only [pure, Except.pure, Except.ok.injEq] at hp
      subst hp
      exact ⟨hraised.build hb, start, hroots.mono fun k n hn => (hg.view k n).mpr (Or.inl hn)⟩
  | advance =>
    simp only [Chronicle.perform, pure, Except.pure, Except.ok.injEq] at hp
    subst hp
    exact ⟨hraised.advance, start, hroots⟩
  | push root =>
    simp only [Chronicle.perform, bind, Except.bind] at hp
    split at hp
    · cases hp
    · rename_i t ht
      simp only [pure, Except.pure, Except.ok.injEq] at hp
      subst hp
      exact ⟨hraised, (hroots.push ht).2⟩
  | keepLatest count =>
    simp only [Chronicle.perform, pure, Except.pure, Except.ok.injEq] at hp
    subst hp
    exact ⟨hraised, _, hroots.drop _⟩

theorem Orderly.attempt (hc : c.Orderly) (deed : Deed) : (c.attempt deed).Orderly := by
  unfold Chronicle.attempt
  split
  · rename_i next hp
    exact hc.perform hp
  · exact hc

theorem Orderly.foldl (hc : c.Orderly) (deeds : List Deed) :
    (deeds.foldl Chronicle.attempt c).Orderly := by
  induction deeds generalizing c with
  | nil => exact hc
  | cons deed deeds ih => exact ih (hc.attempt deed)

/-- Whatever is done, the roots recorded stay in order. -/
theorem orderly_after (arena : Nat) (settings : Settings) (deeds : List Deed) :
    (after arena settings deeds).Orderly :=
  Orderly.foldl ⟨.empty arena settings, 0, by simp [Forest.Ascending]⟩ deeds

/-- A root is put behind the others, or nothing changes. -/
theorem Orderly.push_cases (hc : c.Orderly) (root : Handle) :
    (∃ t, c.timeline.push c.forest root = .ok t ∧ t.roots = c.timeline.roots ++ [root] ∧
      c.attempt (.push root) = { c with timeline := t }) ∨
    ∃ e, c.timeline.push c.forest root = .error e ∧ c.attempt (.push root) = c := by
  obtain ⟨-, start, hroots⟩ := hc
  cases hp : c.timeline.push c.forest root with
  | ok t =>
    refine Or.inl ⟨t, rfl, (hroots.push hp).1, ?_⟩
    simp [Chronicle.attempt, Chronicle.perform, hp, bind, Except.bind, pure, Except.pure]
  | error e =>
    refine Or.inr ⟨e, rfl, ?_⟩
    simp [Chronicle.attempt, Chronicle.perform, hp, bind, Except.bind]

end Chronicle

/-- **A timeline can be replayed late.** Whatever has been built, claimed, recorded, refused and
dropped, the roots recorded are of consecutive generations, a root is recorded behind the others
or nothing changes, and from each root to the next there is a patch. If a surface can be led
through all of the roots, these patches lead from the oldest rendering to the latest. -/
theorem chronicle_replays (arena : Nat) (settings : Settings) (deeds : List Deed) :
    let c := Chronicle.after arena settings deeds
    (∃ start, c.forest.Ascending start c.timeline.roots) ∧
    (∀ root,
      (∃ t, c.timeline.push c.forest root = .ok t ∧ t.roots = c.timeline.roots ++ [root] ∧
        c.attempt (.push root) = { c with timeline := t }) ∨
      ∃ e, c.timeline.push c.forest root = .error e ∧ c.attempt (.push root) = c) ∧
    (∀ before p q after, c.timeline.roots = before ++ p :: q :: after →
      ∃ patch, Patch.between c.forest p q = .ok patch) ∧
    ((∀ r ∈ c.timeline.roots, ∀ root, c.forest.node r = .ok root → c.forest.Passable r root) →
      ∀ first last, c.timeline.roots.head? = some first → c.timeline.latest = some last →
        ∃ old new d e patch, c.forest.node first = .ok old ∧ c.forest.node last = .ok new ∧
          Document.ofRoot old = .ok d ∧ Document.ofRoot new = .ok e ∧
          Patch.through c.forest c.timeline.roots = .ok patch ∧
          d.applyPatch patch = (e, none)) := by
  intro c
  have hc : c.Orderly := Chronicle.orderly_after arena settings deeds
  obtain ⟨hsound, -, hclaimed⟩ := hc.raised.stamps
  obtain ⟨start, hroots⟩ := hc.ascending
  refine ⟨⟨start, hroots⟩, hc.push_cases, ?_, ?_⟩
  · intro before p q after hsplit
    rw [hsplit] at hroots
    exact hsound.between_ok_of_ascending hroots
  · intro pass first last hfirst hlast
    obtain ⟨rest, hsplit⟩ := List.head?_eq_some_iff.mp hfirst
    obtain ⟨old, new, patch, hold, hnew, hpatch, happly⟩ :=
      hsound.applyPatch_through hclaimed (hsplit ▸ hroots) (hsplit ▸ pass)
    have hlast' : (first :: rest).getLast (List.cons_ne_nil _ _) = last := by
      rw [Timeline.latest, hsplit, List.getLast?_eq_some_getLast (List.cons_ne_nil _ _),
        Option.some.injEq] at hlast
      exact hlast
    rw [hlast'] at hnew
    have hcontent {r : Handle} {n : Node} (hr : r ∈ c.timeline.roots)
        (hn : c.forest.node r = .ok n) : n.content.isEmpty = false :=
      (pass r hr n hn).content
    refine ⟨old, new, _, _, patch, hold, hnew,
      Document.ofRoot_of_content c.forest.settings (hcontent ?_ hold),
      Document.ofRoot_of_content c.forest.settings (hcontent ?_ hnew), hsplit ▸ hpatch, happly⟩
    · exact List.mem_of_mem_head? hfirst
    · exact List.mem_of_getLast? hlast

/-- Three roots share a text, which a scratch branch of a fourth generation claims again in the
end. The first root is offered once more in between and refused. -/
def lateDeeds : List Deed :=
  [.build (.leaf "t"), .build (.branch "doc" [⟨0, 0⟩]), .push ⟨0, 1⟩, .advance,
    .build (.leaf "u"), .build (.branch "doc" [⟨0, 0⟩, ⟨0, 2⟩]), .push ⟨0, 1⟩, .push ⟨0, 3⟩,
    .advance, .build (.branch "p" [⟨0, 2⟩]), .build (.branch "doc" [⟨0, 0⟩, ⟨0, 4⟩]),
    .push ⟨0, 5⟩, .advance, .build (.branch "scratch" [⟨0, 0⟩, ⟨0, 2⟩]), .keepLatest 3]

def lateSurface : Document := ⟨.ofTokens [.text "t"], by decide, by decide⟩

def latestSurface : Document :=
  ⟨.ofTokens [.text "t", .opening "p", .text "u", .closing "p"], by decide, by decide⟩

theorem chronicle_replays_late :
    (Chronicle.after 0 {} lateDeeds).timeline.roots = [⟨0, 1⟩, ⟨0, 3⟩, ⟨0, 5⟩] ∧
      (Chronicle.after 0 {} lateDeeds).forest.claimedAt ⟨0, 0⟩ = 3 ∧
      ∃ patch, Patch.through (Chronicle.after 0 {} lateDeeds).forest
          (Chronicle.after 0 {} lateDeeds).timeline.roots = .ok patch ∧
        lateSurface.applyPatch patch = (latestSurface, none) := by
  have hroots : (Chronicle.after 0 {} lateDeeds).timeline.roots =
      [⟨0, 1⟩, ⟨0, 3⟩, ⟨0, 5⟩] := rfl
  refine ⟨hroots, rfl, ?_⟩
  have hfirst : (Chronicle.after 0 {} lateDeeds).forest.node ⟨0, 1⟩ = .ok _ := rfl
  have hsecond : (Chronicle.after 0 {} lateDeeds).forest.node ⟨0, 3⟩ = .ok _ := rfl
  have hlast : (Chronicle.after 0 {} lateDeeds).forest.node ⟨0, 5⟩ = .ok _ := rfl
  have pass : ∀ r ∈ (Chronicle.after 0 {} lateDeeds).timeline.roots, ∀ root,
      (Chronicle.after 0 {} lateDeeds).forest.node r = .ok root →
        (Chronicle.after 0 {} lateDeeds).forest.Passable r root := by
    intro r hr root hroot
    have hr : r = ⟨0, 1⟩ ∨ r = ⟨0, 3⟩ ∨ r = ⟨0, 5⟩ := by simpa [hroots] using hr
    rcases hr with rfl | rfl | rfl
    · obtain rfl := Except.ok.inj (hfirst.symm.trans hroot)
      exact Forest.passable_of_entries (by decide) (by decide) (by decide)
    · obtain rfl := Except.ok.inj (hsecond.symm.trans hroot)
      exact Forest.passable_of_entries (by decide) (by decide) (by decide)
    · obtain rfl := Except.ok.inj (hlast.symm.trans hroot)
      exact Forest.passable_of_entries (by decide) (by decide) (by decide)
  obtain ⟨old, new, d, e, patch, hold, hnew, hd, he, hpatch, happly⟩ :=
    (chronicle_replays 0 {} lateDeeds).2.2.2 pass ⟨0, 1⟩ ⟨0, 5⟩ rfl rfl
  obtain rfl := Except.ok.inj (hfirst.symm.trans hold)
  obtain rfl := Except.ok.inj (hlast.symm.trans hnew)
  obtain rfl : lateSurface = d := Except.ok.inj hd
  obtain rfl : latestSurface = e := Except.ok.inj he
  exact ⟨patch, hpatch, happly⟩

end TreePatch
