import TreePatch.Proofs.RootReuse

/-! A surface over roots that may be without content. In their place it holds a placeholder,
which a patch from such a root does not take away: behind the new rendering it stays as a gap. -/

namespace TreePatch

/-- What stands behind the rendering of a root: the placeholder if there is no content. -/
def Node.padding (settings : Settings) (root : Node) : Fragment :=
  if root.content.isEmpty then .bareBranch settings.placeholderKind else .empty

/-- What a surface holds of a root. -/
def Document.surface (settings : Settings) (root : Node) : Document :=
  match Document.ofRoot root with
  | .ok d => d
  | .error _ => .placeholder settings

/-- What stays behind on the way from one root to another: the placeholder of the first if only
the second has content. -/
def Patch.gap (settings : Settings) (old new : Node) : Fragment :=
  if old.content.isEmpty = true ∧ new.content.isEmpty = false then
    .bareBranch settings.placeholderKind
  else .empty

namespace Node

theorem content_eq_empty {root : Node} (h : root.content.isEmpty = true) :
    root.content = .empty :=
  Fragment.eq_empty_of_size _ ((Fragment.isEmpty_iff_size_eq_zero _).mp h)

theorem padding_of_empty {settings : Settings} {root : Node} (h : root.content.isEmpty = true) :
    root.padding settings = .bareBranch settings.placeholderKind :=
  if_pos h

theorem padding_of_content {settings : Settings} {root : Node}
    (h : root.content.isEmpty = false) : root.padding settings = .empty :=
  if_neg (by simp [h])

theorem matched_padding (settings : Settings) (root : Node) : (root.padding settings).Matched := by
  unfold padding
  split
  · exact Fragment.matched_bareBranch _
  · exact Fragment.matched_empty

/-- With its padding a rendering is fit to stand on a surface. -/
theorem fit_padding (settings : Settings) (root : Node) {g : Fragment} (hg : g.Matched) :
    (root.content ++ root.padding settings ++ g).Fit := by
  refine ⟨?_, (root.matched_content.append (root.matched_padding settings)).append hg⟩
  cases h : root.content.isEmpty with
  | true => simp [padding, h]
  | false =>
    have := (Document.isEmpty_eq_false_iff _).mp h
    simp only [Fragment.size_append]
    omega

end Node

theorem Document.content_surface (settings : Settings) (root : Node) :
    (Document.surface settings root).content = root.content ++ root.padding settings := by
  cases h : root.content.isEmpty with
  | true =>
    have hnone : Document.ofRoot root = .error .noContent := by
      simp [Document.ofRoot, Document.ofFragment, h]
    rw [Node.padding_of_empty h, Node.content_eq_empty h, Fragment.empty_append, surface, hnone]
    rfl
  | false =>
    have hfit : root.content.Fit := ⟨(isEmpty_eq_false_iff _).mp h, root.matched_content⟩
    have hsome : Document.ofRoot root = _ := ofFragment_of_fit hfit
    rw [Node.padding_of_content h, Fragment.append_empty, surface, hsome]

theorem Patch.gap_eq_empty_iff (settings : Settings) (old new : Node) :
    gap settings old new = .empty ↔
      ¬ (old.content.isEmpty = true ∧ new.content.isEmpty = false) := by
  unfold gap
  split
  · rename_i h
    refine iff_of_false (fun he => ?_) (not_not_intro h)
    have := congrArg Fragment.size he
    simp at this
  · rename_i h
    exact iff_of_true rfl h

namespace Forest

variable {f : Forest} {p c : Handle} {old new : Node}

/-- Content that goes altogether leaves the placeholder that the new root is due. -/
theorem Sound.strands_of_empty (hf : f.Sound) (hp : f.node p = .ok old) (hc : f.node c = .ok new)
    (root : ¬ f.RootKept old new) (ho : old.content.isEmpty = false)
    (hn : new.content.isEmpty = true) :
    Patch.Strands f.settings (f.settled old new).old (f.settled old new).new := by
  have hsized : ∀ s ∈ (f.settled old new).new, s.Sized := hf.sized_new hc
  have hwidth : Segment.totalWidth (f.settled old new).new = 0 := by
    rw [← Segment.size_rendering hsized, rendering_new, Node.content_eq_empty hn]
    rfl
  have hstill := (Segment.totalWidth_eq_zero_iff _).mp hwidth
  refine ⟨?_, ?_, ?_⟩
  · rw [← Segment.remnant_eq_empty_iff (hf.sized_old hp), hf.remnant_settled hp hc]
    exact Segment.remnant_eq_empty hsized fun s hs _ => hstill s hs
  · rw [← Segment.size_rendering (hf.sized_old hp), rendering_old root]
    exact (Document.isEmpty_eq_false_iff _).mp ho
  · cases hadds : Addition.ofSegments none 0 (f.settled old new).new with
    | nil => exact id
    | cons e es =>
      obtain ⟨before, fresh, after, hf, -, -⟩ := Addition.ofSegments_eq_cons hadds
      have hv := hf.visible
      rw [hf.row, Segment.totalWidth_append, Segment.totalWidth_append] at hwidth
      omega

/-- What remains of the filling and the old padding make up the new padding and the gap. -/
theorem Sound.remains_append_padding (hf : f.Sound) (hp : f.node p = .ok old)
    (hc : f.node c = .ok new) (root : ¬ f.RootKept old new) (blank : ¬ new.ReusesBlank) :
    Patch.remains f old new ++ old.padding f.settings =
      new.padding f.settings ++ Patch.gap f.settings old new := by
  have hsettled : new.content.isEmpty = false → Patch.remains f old new = .empty := by
    intro hn
    have := hf.not_strands hp hc blank ((Document.isEmpty_eq_false_iff _).mp hn)
    rw [Patch.remains, Patch.leftover, if_neg this]
  cases ho : old.content.isEmpty with
  | false =>
    cases hn : new.content.isEmpty with
    | false => simp [Node.padding, Patch.gap, ho, hn, hsettled hn]
    | true =>
      have := hf.strands_of_empty hp hc root ho hn
      simp [Node.padding, Patch.gap, ho, hn, Patch.remains, Patch.leftover, this]
  | true =>
    cases hn : new.content.isEmpty with
    | false => simp [Node.padding, Patch.gap, ho, hn, hsettled hn]
    | true =>
      have hwidth : Segment.totalWidth (f.settled old new).old = 0 := by
        rw [← Segment.size_rendering (hf.sized_old hp), rendering_old root,
          Node.content_eq_empty ho]
        rfl
      have hstrands : ¬ Patch.Strands f.settings (f.settled old new).old
          (f.settled old new).new := fun h => h.2.1 hwidth
      simp [Node.padding, Patch.gap, ho, hn, Patch.remains, Patch.leftover, hstrands]

/-- **A surface over two roots.** It takes the patch, and what stands behind the rendering
moves on with it; only a placeholder may come in between. -/
theorem Sound.takes_surface (hf : f.Sound) (hp : f.node p = .ok old) (hc : f.node c = .ok new)
    (next : new.born = old.born + 1) (root : ¬ f.RootKept old new) (blank : ¬ new.ReusesBlank)
    {g : Fragment} (hg : g.Matched) :
    ∃ patch, Patch.between f p c = .ok patch ∧
      Patch.Takes patch (old.content ++ old.padding f.settings ++ g)
        (new.content ++ new.padding f.settings ++ Patch.gap f.settings old new ++ g) := by
  obtain ⟨patch, hpatch, htakes⟩ := takes_between hf hp hc next root
    (old.padding f.settings ++ g)
    (by rw [← Fragment.append_assoc]; exact old.fit_padding f.settings hg)
  refine ⟨patch, hpatch, ?_⟩
  have hrest := hf.remains_append_padding hp hc root blank
  rw [Fragment.append_assoc] at htakes
  rw [Fragment.append_assoc (new.content), ← hrest]
  simpa only [Fragment.append_assoc] using htakes

end Forest

/-- A new surface takes the patch that leads to a root, whether or not the root has content. -/
theorem takes_populate {f : Forest} {c : Handle} {new : Node} (hc : f.node c = .ok new) :
    ∃ patch, Patch.populate f c = .ok patch ∧
      Patch.Takes patch (.bareBranch f.settings.placeholderKind)
        (new.content ++ new.padding f.settings) := by
  cases hn : new.content.isEmpty with
  | true =>
    refine ⟨[], by simp [Patch.populate, hc, hn, bind, Except.bind, pure, Except.pure], ?_⟩
    rw [Node.padding_of_empty hn, Node.content_eq_empty hn, Fragment.empty_append]
    exact Patch.takes_nil _
  | false =>
    rw [Node.padding_of_content hn, Fragment.append_empty]
    by_cases hbare : new.content = .bareBranch f.settings.placeholderKind
    · refine ⟨[], by simp [Patch.populate, hc, hbare, bind, Except.bind, pure, Except.pure], ?_⟩
      rw [hbare]
      exact Patch.takes_nil _
    · refine ⟨[.delete 0 (Fragment.bareBranch f.settings.placeholderKind).size (some new.content)],
        by simp [Patch.populate, hc, hn, hbare, bind, Except.bind, pure, Except.pure], ?_⟩
      have hfit : new.content.Fit :=
        ⟨(Document.isEmpty_eq_false_iff _).mp hn, new.matched_content⟩
      have := Patch.takes_delete .empty (.bareBranch f.settings.placeholderKind) .empty
        (some new.content) (by simpa using hfit)
      simpa using this

end TreePatch
