import TreePatch.Proofs.FirstChange

/-! A root that takes over some children of the one before it, and has new ones in one place. The
stretch of those that are gone is removed and the stretch of the new ones is added, each as a
whole; if no child is taken over, the one is put in place of the other
(`Forest.Exchanges.between`). -/

namespace TreePatch

open Segment

/-! ## Rows with one stretch that changes -/

namespace Removal

variable {settings : Settings} {front gone back : List Segment}

theorem ofSegments_still (position : Nat) (gone : List Segment)
    (h : ∀ s ∈ front, s.isChanged = false) :
    ofSegments settings position (front ++ gone) =
      ofSegments settings (position + totalWidth front) gone := by
  induction front generalizing position with
  | nil => rfl
  | cons s front ih =>
    have hs := h s List.mem_cons_self
    have hrest := ih (position + s.width) fun s hs => h s (List.mem_cons_of_mem _ hs)
    rw [totalWidth_cons, ← Nat.add_assoc]
    cases s with
    | changed n => cases hs
    | _ => exact hrest

theorem ofSegments_append_still (position : Nat) (h : ∀ s ∈ back, s.isChanged = false) :
    ofSegments settings position (gone ++ back) = ofSegments settings position gone := by
  induction gone generalizing position with
  | nil =>
    rw [List.nil_append, ← List.append_nil back, ofSegments_still position [] h]
    rfl
  | cons s gone ih => cases s <;> simp only [List.cons_append, ofSegments, ih]

/-- A visible stretch is removed at once. -/
theorem ofSegments_stretch (settings : Settings) (hfront : ∀ s ∈ front, s.isChanged = false)
    (hgone : ∀ s ∈ gone, s.isChanged = true) (hback : ∀ s ∈ back, s.isChanged = false)
    (visible : totalWidth gone ≠ 0) :
    ∃ kind, ofSegments settings 0 (front ++ gone ++ back) =
      [⟨⟨totalWidth front, totalWidth front + totalWidth gone⟩, kind⟩] := by
  have hcleared : Cleared gone := fun s hs hc => by rw [hgone s hs] at hc; cases hc
  rw [ofSegments_append_still 0 hback, ofSegments_still 0 gone hfront, Nat.zero_add]
  exact ofSegments_cleared settings _ hcleared visible

end Removal

namespace Addition

variable {front fresh back : List Segment}

theorem ofSegments_close_of_still (began : Option Nat) (position : Nat)
    (h : ∀ s ∈ back, s.isChanged = false) :
    ofSegments began position back = close began position := by
  induction back generalizing began position with
  | nil => rfl
  | cons s back ih =>
    have hs := h s List.mem_cons_self
    have hrest := ih none (position + s.width) fun s hs => h s (List.mem_cons_of_mem _ hs)
    cases s with
    | changed n => cases hs
    | _ =>
      simp only [ofSegments]
      rw [hrest, close_none, List.append_nil]

theorem ofSegments_append_still (began : Option Nat) (position : Nat)
    (h : ∀ s ∈ back, s.isChanged = false) :
    ofSegments began position (fresh ++ back) = ofSegments began position fresh := by
  induction fresh generalizing began position with
  | nil => exact ofSegments_close_of_still began position h
  | cons s fresh ih => cases s <;> simp only [List.cons_append, ofSegments, ih]

/-- A visible stretch is added at once. -/
theorem ofSegments_stretch (hfront : ∀ s ∈ front, s.isChanged = false)
    (hfresh : ∀ s ∈ fresh, s.isChanged = true) (hback : ∀ s ∈ back, s.isChanged = false)
    (visible : totalWidth fresh ≠ 0) :
    ofSegments none 0 (front ++ fresh ++ back) =
      [⟨totalWidth front, totalWidth front + totalWidth fresh⟩] := by
  rw [ofSegments_append_still none 0 hback, ofSegments_still 0 fresh hfront, Nat.zero_add]
  cases fresh with
  | nil => exact absurd rfl visible
  | cons s fresh =>
    have hs := hfresh s List.mem_cons_self
    cases s with
    | changed n =>
      simp only [ofSegments, Option.getD_none]
      rw [ofSegments_all_changed fun s hs => hfresh s (List.mem_cons_of_mem _ hs)]
      simp only [totalWidth_cons, width] at visible ⊢
      rw [close, if_pos (by omega), Nat.add_assoc]
    | _ => cases hs

end Addition

namespace Patch

variable {settings : Settings} {front gone fresh back : List Segment}

/-- Between kept parts a stretch goes, and another one comes in its place. -/
theorem assemble_stretch (hfront : ∀ s ∈ front, s.isChanged = false)
    (hgone : ∀ s ∈ gone, s.isChanged = true) (hfresh : ∀ s ∈ fresh, s.isChanged = true)
    (hback : ∀ s ∈ back, s.isChanged = false) (visible : totalWidth gone ≠ 0)
    (visible' : totalWidth fresh ≠ 0) (sized : ∀ s ∈ front ++ gone ++ fresh ++ back, s.Sized)
    (kept : ∃ s ∈ front ++ back, s.width ≠ 0) :
    assemble settings (totalWidth (front ++ gone ++ back)) (rendering (front ++ fresh ++ back))
        (Removal.ofSegments settings 0 (front ++ gone ++ back))
        (Addition.ofSegments none 0 (front ++ fresh ++ back)) =
      .ok [.delete (rendering front).size ((rendering front).size + (rendering gone).size) none,
        .insert (rendering front).size (rendering fresh)] := by
  have hfrontsize : totalWidth front = (rendering front).size :=
    (size_rendering fun s hs => sized s (by simp [hs])).symm
  have hgonesize : totalWidth gone = (rendering gone).size :=
    (size_rendering fun s hs => sized s (by simp [hs])).symm
  have hfreshsize : totalWidth fresh = (rendering fresh).size :=
    (size_rendering fun s hs => sized s (by simp [hs])).symm
  have hslice : (rendering (front ++ fresh ++ back)).slice
      ⟨(rendering front).size, (rendering front).size + (rendering fresh).size⟩ =
        .ok (rendering fresh) := by
    rw [rendering_append, rendering_append, Fragment.slice_append]
  have hcleared : ¬ (Cleared (front ++ gone ++ back) ∧ totalWidth (front ++ gone ++ back) ≠ 0) := by
    rintro ⟨hcleared, -⟩
    obtain ⟨s, hs, hwidth⟩ := kept
    rcases List.mem_append.mp hs with hs | hs
    · exact hwidth (hcleared s (by simp [hs]) (hfront s hs))
    · exact hwidth (hcleared s (by simp [hs]) (hback s hs))
  obtain ⟨kind, hremovals⟩ := Removal.ofSegments_stretch settings hfront hgone hback visible
  rw [assemble_of_kept _ _ hcleared, hremovals,
    Addition.ofSegments_stretch hfront hfresh hback visible', hfrontsize, hgonesize, hfreshsize]
  simp only [insertions, hslice, bind, Except.bind, pure, Except.pure, Except.map]
  rfl

/-- With nothing kept the new content is put in place of the old. -/
theorem assemble_whole (hgone : ∀ s ∈ gone, s.isChanged = true)
    (hfresh : ∀ s ∈ fresh, s.isChanged = true) (visible : totalWidth gone ≠ 0)
    (visible' : totalWidth fresh ≠ 0) (sized : ∀ s ∈ gone ++ fresh, s.Sized) :
    assemble settings (totalWidth gone) (rendering fresh) (Removal.ofSegments settings 0 gone)
        (Addition.ofSegments none 0 fresh) =
      .ok [.delete 0 (rendering gone).size (some (rendering fresh))] := by
  have hcleared : Cleared gone := fun s hs hc => by rw [hgone s hs] at hc; cases hc
  have hadds : Addition.ofSegments none 0 ([] ++ fresh ++ []) =
      [⟨totalWidth [], totalWidth [] + totalWidth fresh⟩] :=
    Addition.ofSegments_stretch (by simp) hfresh (by simp) visible'
  have hsize : totalWidth fresh = (rendering fresh).size :=
    (size_rendering fun s hs => sized s (List.mem_append_right _ hs)).symm
  simp only [List.nil_append, List.append_nil, totalWidth_nil, Nat.zero_add, hsize] at hadds
  have hslice : (rendering fresh).slice ⟨0, (rendering fresh).size⟩ = .ok (rendering fresh) := by
    simpa using Fragment.slice_append .empty (rendering fresh) .empty
  have hfills : Fills settings (rendering fresh) [⟨0, (rendering fresh).size⟩] := Or.inl rfl
  rw [hadds, assemble_of_cleared hcleared visible (filling_of_fills rfl hslice hfills)
    (show insertions _ [] = .ok [] from rfl),
    size_rendering fun s hs => sized s (List.mem_append_left _ hs)]

end Patch

/-! ## Roots that share children -/

namespace Node

/-- The rendering of siblings. -/
def rendering (ns : List Node) : Fragment := .ofTokens (tokensAmong ns)

theorem rendering_append (a b : List Node) :
    rendering (a ++ b) = rendering a ++ rendering b := by
  rw [rendering, tokensAmong_append, Fragment.ofTokens_append]
  rfl

theorem tokens_map_kept (ns : List Node) :
    (ns.map Segment.kept).flatMap Segment.tokens = tokensAmong ns := by
  induction ns with
  | nil => rfl
  | cons n ns ih => rw [List.map_cons, List.flatMap_cons, ih]; rfl

theorem tokens_map_changed (ns : List Node) :
    (ns.map Segment.changed).flatMap Segment.tokens = tokensAmong ns := by
  induction ns with
  | nil => rfl
  | cons n ns ih => rw [List.map_cons, List.flatMap_cons, ih]; rfl

theorem rendering_map_kept (ns : List Node) :
    Segment.rendering (ns.map .kept) = rendering ns := by
  rw [Segment.rendering, tokens_map_kept, rendering]

theorem rendering_map_changed (ns : List Node) :
    Segment.rendering (ns.map .changed) = rendering ns := by
  rw [Segment.rendering, tokens_map_changed, rendering]

end Node

section Surveys

variable {s : Sieve} {n : Node} {ns : List Node}

theorem surveyAmong_of_keeps (h : ∀ n ∈ ns, s.keeps n = true) :
    surveyAmong s ns = ns.map .kept := by
  induction ns with
  | nil => rfl
  | cons n ns ih =>
    rw [surveyAmong, survey_of_keeps (h n List.mem_cons_self),
      ih fun m hm => h m (List.mem_cons_of_mem _ hm)]
    rfl

/-- A node in which nothing is kept changes as a whole. -/
theorem survey_of_bare (h : n.Bare s) : survey s n = [.changed n] := by
  have hself := h n (Node.mem_nodes_self n)
  cases n with
  | leaf tag text => simp [survey, hself]
  | branch tag kind children =>
    have hany : (surveyAmong s children).any Segment.isKept = false := by
      rw [List.any_eq_false]
      intro seg hseg hkept
      cases seg with
      | kept m =>
        have hm := h m (List.mem_cons_of_mem _ (node_mem_surveyAmong s children m _ hseg rfl))
        rw [(kept_mem_surveyAmong s children m hseg).2] at hm
        cases hm
      | _ => cases hkept
    simp [survey, hself, hany]

theorem surveyAmong_of_bare (h : ∀ n ∈ ns, n.Bare s) :
    surveyAmong s ns = ns.map .changed := by
  induction ns with
  | nil => rfl
  | cons n ns ih =>
    rw [surveyAmong, survey_of_bare (h n List.mem_cons_self),
      ih fun m hm => h m (List.mem_cons_of_mem _ hm)]
    rfl

theorem surveyRoot_of_children {root : Node} (h : s.keeps root = false)
    (below : root.children ≠ []) : surveyRoot s root = surveyAmong s root.children := by
  cases root with
  | leaf tag text => exact absurd rfl below
  | branch tag kind children => exact surveyRoot_branch s tag kind children h

end Surveys

theorem Node.content_of_children {root : Node} (below : root.children ≠ []) :
    root.content = rendering root.children := by
  cases root with
  | leaf tag text => exact absurd rfl below
  | branch tag kind children => rw [content, contentTokens_branch, rendering, Node.children]

namespace Forest

/-- The second root takes over the children of the first but for some in one place, where it has
new ones. What it takes over counts as claimed since then, and nothing of the rest does. -/
structure Exchanges (f : Forest) (p c : Handle) (old new : Node)
    (front gone fresh back : List Node) : Prop where
  previous : f.node p = .ok old
  current : f.node c = .ok new
  next : new.born = old.born + 1
  before : old.children = front ++ gone ++ back
  after : new.children = front ++ fresh ++ back
  unclaimed : f.claimedAt p = old.born
  live : ∀ n ∈ front ++ back, old.born < f.claimedAt n.handle
  dead : ∀ n ∈ Node.nodesAmong gone, f.claimedAt n.handle ≤ old.born
  anew : ∀ n ∈ Node.nodesAmong fresh, n.born = new.born
  wide : ∀ n ∈ front ++ gone ++ fresh ++ back, n.span ≠ 0
  gone_ne_nil : gone ≠ []
  fresh_ne_nil : fresh ≠ []

variable {f : Forest} {p c : Handle} {old new : Node} {front gone fresh back : List Node}

namespace Exchanges

theorem below_old (h : f.Exchanges p c old new front gone fresh back) : old.children ≠ [] := by
  simp [h.before, h.gone_ne_nil]

theorem below_new (h : f.Exchanges p c old new front gone fresh back) : new.children ≠ [] := by
  simp [h.after, h.fresh_ne_nil]

theorem surveyOld (hf : f.Sound) (h : f.Exchanges p c old new front gone fresh back) :
    TreePatch.surveyOld f.claimedAt (fun _ => false) old =
      front.map .kept ++ gone.map .changed ++ back.map .kept := by
  have hkeeps : ∀ n, (Sieve.standing old f.claimedAt fun _ => false).keeps n =
      decide (old.born < f.claimedAt n.handle) := by simp [Sieve.standing]
  have hroot : (Sieve.standing old f.claimedAt fun _ => false).keeps old = false := by
    rw [hkeeps, hf.named h.previous, h.unclaimed]
    exact decide_eq_false (Nat.lt_irrefl _)
  have hfront : surveyAmong (.standing old f.claimedAt fun _ => false) front = front.map .kept :=
    surveyAmong_of_keeps fun n hn => by
      rw [hkeeps, decide_eq_true (h.live n (List.mem_append_left _ hn))]
  have hback : surveyAmong (.standing old f.claimedAt fun _ => false) back = back.map .kept :=
    surveyAmong_of_keeps fun n hn => by
      rw [hkeeps, decide_eq_true (h.live n (List.mem_append_right _ hn))]
  have hgone : surveyAmong (.standing old f.claimedAt fun _ => false) gone = gone.map .changed :=
    surveyAmong_of_bare fun n hn m hm => by
      rw [hkeeps]
      exact decide_eq_false (Nat.not_lt_of_le (h.dead m (Node.mem_nodesAmong.mpr ⟨n, hn, hm⟩)))
  rw [TreePatch.surveyOld, surveyRoot_of_children hroot h.below_old, h.before,
    surveyAmong_append, surveyAmong_append, hfront, hgone, hback]

theorem surveyNew (hf : f.Sound) (h : f.Exchanges p c old new front gone fresh back) :
    TreePatch.surveyNew (fun _ => false) new =
      front.map .kept ++ fresh.map .changed ++ back.map .kept := by
  have hkeeps : ∀ n, (Sieve.reused new fun _ => false).keeps n = decide (n.born < new.born) := by
    simp [Sieve.reused]
  -- what is taken over is no newer than the old root
  have holder : ∀ n ∈ front ++ back, n.born < new.born := by
    intro n hn
    have hchild : n ∈ old.children := by
      rw [h.before]
      simp only [List.mem_append] at hn ⊢
      tauto
    have hle := hf.born_le_root h.previous n
      (Node.mem_nodes_of_child (Node.mem_nodes_self old) hchild)
    rw [h.next]
    exact Nat.lt_succ_of_le hle
  have hfront : surveyAmong (.reused new fun _ => false) front = front.map .kept :=
    surveyAmong_of_keeps fun n hn => by
      rw [hkeeps, decide_eq_true (holder n (List.mem_append_left _ hn))]
  have hback : surveyAmong (.reused new fun _ => false) back = back.map .kept :=
    surveyAmong_of_keeps fun n hn => by
      rw [hkeeps, decide_eq_true (holder n (List.mem_append_right _ hn))]
  have hfresh : surveyAmong (.reused new fun _ => false) fresh = fresh.map .changed :=
    surveyAmong_of_bare fun n hn m hm => by
      rw [hkeeps, h.anew m (Node.mem_nodesAmong.mpr ⟨n, hn, hm⟩)]
      exact decide_eq_false (Nat.lt_irrefl _)
  have hroot : (Sieve.reused new fun _ => false).keeps new = false := by
    rw [hkeeps]
    exact decide_eq_false (Nat.lt_irrefl _)
  rw [TreePatch.surveyNew, surveyRoot_of_children hroot h.below_new, h.after,
    surveyAmong_append, surveyAmong_append, hfront, hfresh, hback]

theorem content_old (h : f.Exchanges p c old new front gone fresh back) :
    old.content = Node.rendering front ++ Node.rendering gone ++ Node.rendering back := by
  rw [Node.content_of_children h.below_old, h.before, Node.rendering_append,
    Node.rendering_append]

theorem content_new (h : f.Exchanges p c old new front gone fresh back) :
    new.content = Node.rendering front ++ Node.rendering fresh ++ Node.rendering back := by
  rw [Node.content_of_children h.below_new, h.after, Node.rendering_append,
    Node.rendering_append]

/-- Both rows keep the same, so nothing is uprooted. -/
theorem uprootNext (hf : f.Sound) (h : f.Exchanges p c old new front gone fresh back) :
    TreePatch.uprootNext f.claimedAt old new (fun _ => false) = [] := by
  have hnone (ns : List Node) : Scaffold.ofSegments (ns.map .changed) = [] := by
    simp [Scaffold.ofSegments, piece?, List.filterMap_map, Function.comp_def]
  refine (Scaffold.displaced_eq_nil_iff (nested_surveyRoot _ old)
    (nested_surveyRoot _ new)).mpr ?_
  show Scaffold.ofSegments (TreePatch.surveyOld f.claimedAt (fun _ => false) old) =
    Scaffold.ofSegments (TreePatch.surveyNew (fun _ => false) new)
  rw [h.surveyOld hf, h.surveyNew hf]
  simp only [Scaffold.ofSegments_append, hnone, List.append_nil]

/-- Every node of the rows is of some width, the one it notes. -/
theorem sized (hf : f.Sound) (h : f.Exchanges p c old new front gone fresh back) :
    ∀ n ∈ front ++ gone ++ fresh ++ back, n.Sized := by
  intro n hn
  have hchild : n ∈ old.children ∨ n ∈ new.children := by
    rw [h.before, h.after]
    simp only [List.mem_append] at hn ⊢
    tauto
  rcases hchild with hchild | hchild
  · exact hf.sized_node (hf.below h.previous n hchild).1
  · exact hf.sized_node (hf.below h.current n hchild).1

theorem sized_rows (hf : f.Sound) (h : f.Exchanges p c old new front gone fresh back) :
    ∀ s ∈ front.map Segment.kept ++ gone.map Segment.changed ++ fresh.map Segment.changed ++
      back.map Segment.kept, s.Sized := by
  intro s hs
  refine sized_of_node fun n hn => h.sized hf n ?_
  simp only [List.mem_append, List.mem_map] at hs ⊢
  rcases hs with ((⟨m, hm, rfl⟩ | ⟨m, hm, rfl⟩) | ⟨m, hm, rfl⟩) | ⟨m, hm, rfl⟩ <;>
  · obtain rfl := Option.some.inj hn
    tauto

theorem totalWidth_changed_ne_zero {ns : List Node} (hne : ns ≠ [])
    (wide : ∀ n ∈ ns, n.span ≠ 0) : totalWidth (ns.map .changed) ≠ 0 := by
  obtain ⟨n, ns, rfl⟩ := List.exists_cons_of_ne_nil hne
  have := wide n List.mem_cons_self
  simp only [List.map_cons, totalWidth_cons, width]
  omega

/-- **What goes is deleted at once and what comes is inserted at once** in its place. If nothing
is taken over, the new rendering replaces the whole old one. -/
theorem between (hf : f.Sound) (h : f.Exchanges p c old new front gone fresh back) :
    Patch.between f p c = .ok (if front ++ back = [] then
        [.delete 0 old.content.size (some new.content)]
      else
        [.delete (Node.rendering front).size
            ((Node.rendering front).size + (Node.rendering gone).size) none,
          .insert (Node.rendering front).size (Node.rendering fresh)]) := by
  have hold : Segment.rendering (front.map .kept ++ gone.map .changed ++ back.map .kept) =
      old.content := by
    rw [Segment.rendering_append, Segment.rendering_append, Node.rendering_map_kept,
      Node.rendering_map_changed, Node.rendering_map_kept, h.content_old]
  have hnew : Segment.rendering (front.map .kept ++ fresh.map .changed ++ back.map .kept) =
      new.content := by
    rw [Segment.rendering_append, Segment.rendering_append, Node.rendering_map_kept,
      Node.rendering_map_changed, Node.rendering_map_kept, h.content_new]
  have hspan : old.innerSpan =
      totalWidth (front.map .kept ++ gone.map .changed ++ back.map .kept) := by
    rw [← Node.size_content (hf.sized_node h.previous), ← hold,
      size_rendering fun s hs => h.sized_rows hf s (by simp only [List.mem_append] at hs ⊢; tauto)]
  rw [Patch.between_of_agree h.previous h.current h.next (h.uprootNext hf), h.surveyOld hf,
    h.surveyNew hf, hspan, ← hnew]
  have hgone := totalWidth_changed_ne_zero h.gone_ne_nil fun n hn => h.wide n (by simp [hn])
  have hfresh := totalWidth_changed_ne_zero h.fresh_ne_nil fun n hn => h.wide n (by simp [hn])
  have hsized := h.sized_rows hf
  split
  · rename_i hnone
    obtain ⟨rfl, rfl⟩ := List.append_eq_nil_iff.mp hnone
    simp only [List.map_nil, List.nil_append, List.append_nil] at hold hsized ⊢
    rw [← hold]
    exact Patch.assemble_whole (by simp [isChanged]) (by simp [isChanged]) hgone hfresh hsized
  · rename_i hkept
    obtain ⟨n, hn⟩ := List.exists_mem_of_ne_nil _ hkept
    have hwide : ∃ s ∈ front.map Segment.kept ++ back.map .kept, s.width ≠ 0 := by
      refine ⟨.kept n, ?_, h.wide n ?_⟩
      · rw [← List.map_append]
        exact List.mem_map_of_mem hn
      · simp only [List.mem_append] at hn ⊢
        tauto
    rw [← Node.rendering_map_kept front, ← Node.rendering_map_changed gone,
      ← Node.rendering_map_changed fresh]
    exact Patch.assemble_stretch (by simp [isChanged]) (by simp [isChanged]) (by simp [isChanged])
      (by simp [isChanged]) hgone hfresh hsized hwide

end Exchanges
end Forest
end TreePatch
