import TreePatch.Proofs.Coverage

/-! What is added of a new root. Its additions cover just what stands in a subtree that was built
with it (`additions_exact`). They are stretches of changed segments as removals are, but each
stops where a segment is not changed, so where two of them touch something kept stands between
them. -/

namespace TreePatch

open Segment Node

/-- The whole tree was built in the generation. -/
def Node.BornIn (generation : Generation) (n : Node) : Prop := ∀ m ∈ n.nodes, m.born = generation

instance (generation : Generation) (n : Node) : Decidable (n.BornIn generation) :=
  inferInstanceAs (Decidable (∀ m ∈ n.nodes, m.born = generation))

/-- Keeps what is older than the root. -/
abbrev Sieve.older (root : Node) : Sieve := .reused root fun _ => false

section Older

variable {f : Forest} {c : Handle} {root n : Node} {start : Nat} {path : List Nat}

theorem older_keeps : (Sieve.older root).keeps n = true ↔ n.born < root.born := by
  simp [Sieve.reused]

theorem older_keeps_eq_false :
    (Sieve.older root).keeps n = false ↔ root.born ≤ n.born := by
  simp [Sieve.reused]

/-- What changes as a whole holds nothing older than the root. -/
theorem older_spares {ns : List Node}
    (dated : ∀ m ∈ nodesAmong ns, ∀ x ∈ m.nodes, m.oldest ≤ x.born) :
    (Sieve.older root).Spares ns := by
  intro m hm hkeeps hchanges x hx
  have hold : root.born ≤ m.oldest := by
    have hborn := older_keeps_eq_false.mp hkeeps
    simpa [Sieve.reused, Nat.not_lt_of_le hborn] using hchanges
  exact older_keeps_eq_false.mpr (Nat.le_trans hold (dated m hm x hx))

theorem Forest.Sound.older_spares (hf : f.Sound) (hc : f.node c = .ok root) :
    (Sieve.older root).Spares root.children :=
  TreePatch.older_spares fun m hm x hx => (hf.dated hc m (mem_nodes_of_below hm) x hx).1

/-- Of a tree in a root nothing is kept just if it was built with the root. -/
theorem Forest.Sound.bare_iff_bornIn (hf : f.Sound) (hc : f.node c = .ok root)
    (hn : n ∈ nodesAmong root.children) :
    n.Bare (.older root) ↔ n.BornIn root.born := by
  refine forall₂_congr fun m hm => ?_
  have hle := hf.born_le_root hc m (mem_nodes_trans root (mem_nodes_of_below hn) hm)
  rw [older_keeps_eq_false]
  exact ⟨Nat.le_antisymm hle, Nat.le_of_eq ∘ Eq.symm⟩

theorem Forest.Sound.oldest_eq_iff_bornIn (hf : f.Sound) (hc : f.node c = .ok root)
    (hn : n ∈ nodesAmong root.children) : n.oldest = root.born ↔ n.BornIn root.born := by
  have hmem := mem_nodes_of_below hn
  constructor
  · intro hold m hm
    have hle := hf.born_le_root hc m (mem_nodes_trans root hmem hm)
    have hdated := (hf.dated hc n hmem m hm).1
    rw [hold] at hdated
    exact Nat.le_antisymm hle hdated
  · intro hborn
    have hself := hborn n (mem_nodes_self n)
    rw [← hself, hf.oldest_eq_born_iff (hf.held hc n hmem), hself]
    exact hborn

/-- On the way to what was built with the root nothing is older. -/
theorem Forest.Sound.clear_of_bornIn (hf : f.Sound) (hc : f.node c = .ok root)
    (h : followAmong 0 root.children path = some (n, start)) (hn : n.BornIn root.born) :
    ∀ m ∈ onPathAmong root.children path,
      (Sieve.older root).keeps m = false := by
  intro m hm
  obtain ⟨hbelow, hin⟩ := mem_nodes_of_mem_onPathAmong h hm
  have hdated := (hf.dated hc m (mem_nodes_of_below hbelow) n hin).2
  rw [hn n (mem_nodes_self n)] at hdated
  exact older_keeps_eq_false.mpr hdated

/-- The children of a root are surveyed for what is new. -/
theorem Forest.additions_eq (hc : f.node c = .ok root) (branch : root.layer.isLeaf = false) :
    f.additions c = .ok (Addition.ofSegments none 0
      (surveyAmong (.older root) root.children)) := by
  have hread : f.additions c = .ok (Addition.ofSegments none 0
      (surveyNew (fun _ => false) root)) := by
    rw [additions, hc]
    rfl
  cases root with
  | leaf tag text => cases branch
  | branch tag kind children =>
    rw [hread, surveyNew_branch]
    rfl

end Older

namespace Addition

variable {position : Nat} {segments : List Segment} {d e : Extent}

/-- What is behind a run does not begin with anything changed. -/
theorem Run.eq_nil_of_changed {run a b : List Segment} (h : Run segments run (a ++ b))
    (ha : ∀ s ∈ a, s.isChanged = true) : a = [] := by
  cases a with
  | nil => rfl
  | cons g a =>
    have hstops := h.stops g rfl
    rw [ha g List.mem_cons_self] at hstops
    cases hstops

/-- Where two additions touch only what has no width stands between them, and it is not all
changed. -/
theorem blanks_of_touching (hd : d ∈ ofSegments none position segments)
    (he : e ∈ ofSegments none position segments) (touch : d.stop = e.start) :
    ∃ before first blanks second after,
      Stretch position segments ⟨d.start, e.stop⟩ before (first ++ (blanks ++ second)) after ∧
      d.stop = d.start + totalWidth first ∧ (∀ s ∈ first ++ second, s.isChanged = true) ∧
      totalWidth blanks = 0 ∧ ∃ s ∈ blanks, s.isChanged = false := by
  obtain ⟨before, first, after, hfirst, hrun⟩ := stretch_of_mem hd
  obtain ⟨before', second, after', hsecond, hrun'⟩ := stretch_of_mem he
  obtain ⟨hstart, hstop⟩ := Extent.mk.inj hfirst.extent
  obtain ⟨hstart', hstop'⟩ := Extent.mk.inj hsecond.extent
  have hv := hsecond.visible
  have hrow := hfirst.row.symm.trans hsecond.row
  rw [List.append_assoc before'] at hrow
  rcases List.append_eq_append_iff.mp hrow with ⟨blanks, hb, rfl⟩ | ⟨extra, hb, hafter⟩
  · have hwidth : totalWidth before' =
        totalWidth before + totalWidth first + totalWidth blanks := by
      rw [hb, totalWidth_append, totalWidth_append]
    have hz : totalWidth blanks = 0 := by omega
    refine ⟨before, first, blanks, second, after', ⟨?_, ?_, ?_⟩, by omega, ?_, hz, ?_⟩
    · rw [hfirst.row]
      simp only [List.append_assoc]
    · rw [totalWidth_append, totalWidth_append, Extent.mk.injEq]
      omega
    · rw [totalWidth_append, totalWidth_append]
      omega
    · exact List.forall_mem_append.mpr ⟨hrun.changed, hrun'.changed⟩
    · cases blanks with
      | nil =>
        have hnil : second = [] := hrun.eq_nil_of_changed (a := second) hrun'.changed
        rw [hnil] at hv
        exact absurd totalWidth_nil hv
      | cons g blanks => exact ⟨g, List.mem_cons_self, hrun.stops g rfl⟩
  · -- then the first run would go on into the second
    have hwidth : totalWidth before + totalWidth first = totalWidth before' + totalWidth extra := by
      rw [← totalWidth_append, hb, totalWidth_append]
    rcases List.append_eq_append_iff.mp hafter with ⟨rest, rfl, -⟩ | ⟨rest, rfl, rfl⟩
    · rw [totalWidth_append] at hwidth
      omega
    · obtain ⟨-, hrest⟩ := List.forall_mem_append.mp hrun'.changed
      rw [hrun.eq_nil_of_changed hrest, List.append_nil] at hv
      omega

end Addition

namespace Forest

variable {f : Forest} {c : Handle} {root n : Node} {d e : Extent} {x start : Nat} {path : List Nat}

theorem Sound.covers_additions_iff (hf : f.Sound) (hc : f.node c = .ok root)
    (hs : AllSized root.children) :
    (∃ e ∈ Addition.ofSegments none 0 (surveyAmong (.older root) root.children),
      e.Covers x) ↔ ∃ path n start, followAmong 0 root.children path = some (n, start) ∧
        n.BornIn root.born ∧ start ≤ x ∧ x < start + n.span := by
  rw [Addition.covers_ofSegments_iff, changedAt_surveyAmong_iff (hf.older_spares hc) hs]
  constructor
  · rintro ⟨path, n, start, hfollow, -, hbare, hx⟩
    have hn := (stands_of_followAmong hs hfollow).1
    exact ⟨path, n, start, hfollow, (hf.bare_iff_bornIn hc hn).mp hbare, hx⟩
  · rintro ⟨path, n, start, hfollow, hborn, hx⟩
    have hn := (stands_of_followAmong hs hfollow).1
    exact ⟨path, n, start, hfollow, hf.clear_of_bornIn hc hfollow hborn,
      (hf.bare_iff_bornIn hc hn).mpr hborn, hx⟩

/-- What is covered in a node that was not wholly built with the root is clear of its boundaries,
and the node is not older. -/
theorem Sound.clear_of_covers (hf : f.Sound) (hc : f.node c = .ok root)
    (hs : AllSized root.children) (hfollow : followAmong 0 root.children path = some (n, start))
    (hn : ¬ n.BornIn root.born) (hx : start ≤ x ∧ x < start + n.span)
    (he : e ∈ Addition.ofSegments none 0
      (surveyAmong (.older root) root.children)) (hcovers : e.Covers x) :
    root.born ≤ n.born ∧ start < x ∧ x + 1 < start + n.span := by
  obtain ⟨path', m, start', hfollow', hm, hx'⟩ :=
    (hf.covers_additions_iff hc hs).mp ⟨e, he, hcovers⟩
  rcases inside_of_common hs hfollow' hfollow hx' hx with hin | ⟨hin, hfirst, hlast⟩
  · exact absurd (fun k hk => hm k (mem_nodes_trans m hin hk)) hn
  · have hmem := mem_nodes_of_below (stands_of_followAmong hs hfollow).1
    have hdated := (hf.dated hc n hmem m hin).2
    rw [hm m (mem_nodes_self m)] at hdated
    exact ⟨hdated, by omega, by omega⟩

/-- Each addition is of siblings built with the root. -/
theorem Sound.abreast_of_addition (hf : f.Sound) (hc : f.node c = .ok root)
    (hs : AllSized root.children)
    (he : e ∈ Addition.ofSegments none 0
      (surveyAmong (.older root) root.children)) :
    ∃ path front run back, Abreast 0 root.children path front run back e ∧
      ∀ m ∈ run, m.BornIn root.born := by
  obtain ⟨before, fresh, after, hstretch, hrun⟩ := Addition.stretch_of_mem he
  have hne : fresh ≠ [] := fun hnil => hstretch.visible (hnil ▸ totalWidth_nil)
  obtain ⟨path, front, run, back, rfl, hwhole, hsiblings, -⟩ :=
    abreast_of_stretch 0 (hf.older_spares hc) hs hstretch.row hne
      fun g hg => node?_isSome_of_isChanged (hrun.changed g hg)
  rw [← hstretch.extent] at hsiblings
  refine ⟨path, front, run, back, hsiblings, fun m hm => ?_⟩
  have hchanged := hrun.changed _ (List.mem_map_of_mem hm)
  rw [Sieve.isChanged_segment, Bool.not_eq_true'] at hchanged
  exact (hf.bare_iff_bornIn hc (hsiblings.mem_nodesAmong hm)).mp ((hwhole m hm).bare hchanged)

/-- Two additions that touch are of siblings below one node, with an older one between them. -/
theorem Sound.abreast_of_touching (hf : f.Sound) (hc : f.node c = .ok root)
    (hs : AllSized root.children)
    (hd : d ∈ Addition.ofSegments none 0
      (surveyAmong (.older root) root.children))
    (he : e ∈ Addition.ofSegments none 0
      (surveyAmong (.older root) root.children)) (touch : d.stop = e.start) :
    ∃ path front first blanks second back,
      Abreast 0 root.children path front first (blanks ++ second ++ back) d ∧
      Abreast 0 root.children path (front ++ first ++ blanks) second back e ∧
      ∃ m ∈ blanks, m.born < root.born ∧ m.span = 0 := by
  obtain ⟨before, first, blanks, second, after, hstretch, hstop, hchanged, hz, g, hg, hkept⟩ :=
    Addition.blanks_of_touching hd he touch
  obtain ⟨hfirst, hsecond⟩ := List.forall_mem_append.mp hchanged
  have hstill := (totalWidth_eq_zero_iff blanks).mp hz
  have hne : first ++ (blanks ++ second) ≠ [] :=
    fun hnil => hstretch.visible (hnil ▸ totalWidth_nil)
  have plain : ∀ s ∈ first ++ (blanks ++ second), s.node?.isSome := by
    simp only [List.forall_mem_append]
    exact ⟨fun s hs => node?_isSome_of_isChanged (hfirst s hs),
      fun s hs => node?_isSome_of_width (hstill s hs),
      fun s hs => node?_isSome_of_isChanged (hsecond s hs)⟩
  obtain ⟨path, front, run, back, hrun, -, hsiblings, -⟩ :=
    abreast_of_stretch 0 (hf.older_spares hc) hs hstretch.row hne plain
  rw [← hstretch.extent] at hsiblings
  -- the siblings fall into three parts as their segments do
  obtain ⟨ns, rest, rfl, rfl, hrest⟩ := List.map_eq_append_iff.mp hrun.symm
  obtain ⟨ms, ks, rfl, rfl, rfl⟩ := List.map_eq_append_iff.mp hrest
  rw [Sieve.totalWidth_map_segment] at hstop hz
  obtain ⟨habreast, hbehind⟩ := hsiblings.split
  obtain ⟨-, hlast⟩ := hbehind.split
  rw [← hstop] at habreast
  rw [← hstop, hz, Nat.add_zero, touch] at hlast
  refine ⟨path, front, ns, ms, ks, back, habreast, hlast, ?_⟩
  obtain ⟨m, hm, rfl⟩ := List.mem_map.mp hg
  rw [Sieve.isChanged_segment, Bool.not_eq_false'] at hkept
  exact ⟨m, hm, older_keeps.mp hkept, (Sieve.width_segment _ m).symm.trans (hstill _ hg)⟩

end Forest

/-- A new section around an old empty text, with a new text in front of it and a new paragraph
behind it. -/
def paddedForest : Forest :=
  Scripted.forest [
    .build (.branch "doc" [.leaf "" none] none),
    .advance,
    .build (.branch "doc" [.branch "section" [.leaf "y" none, .node (.index 0),
      .branch "paragraph" [] none] none] none)]

end TreePatch
