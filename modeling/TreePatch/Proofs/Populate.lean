import TreePatch.Proofs.Surface

/-! The way of a new surface to its first root. It holds a placeholder, which gives way to the
rendering as a whole or stays if there is nothing to render. -/

namespace TreePatch

variable {f : Forest} {h : Handle} {root : Node}

namespace Document

theorem surface_of_empty {settings : Settings} (he : root.content.isEmpty = true) :
    surface settings root = .placeholder settings := by
  refine ext ?_
  rw [content_surface, Node.padding_of_empty he, Node.content_eq_empty he, Fragment.empty_append,
    placeholder]

theorem ofRoot_of_content (settings : Settings) (hn : root.content.isEmpty = false) :
    ofRoot root = .ok (surface settings root) := by
  have hfit : root.content.Fit := ⟨(isEmpty_eq_false_iff _).mp hn, root.matched_content⟩
  have hsome : ofRoot root = .ok _ := ofFragment_of_fit hfit
  rw [surface, hsome]

end Document

/-- A new surface takes the first patch to a root and is then the surface of that root. -/
theorem applyPatch_populate (hr : f.node h = .ok root) :
    ∃ patch, Patch.populate f h = .ok patch ∧
      (Document.placeholder f.settings).applyPatch patch =
        (Document.surface f.settings root, none) := by
  obtain ⟨patch, hpatch, htakes⟩ := takes_populate hr
  obtain ⟨d, happly, hd⟩ := htakes (Document.placeholder f.settings) rfl
  have hsurface : d = Document.surface f.settings root :=
    Document.ext (hd.trans (Document.content_surface _ _).symm)
  exact ⟨patch, hpatch, hsurface ▸ happly⟩

theorem populate_eq_nil_iff (hr : f.node h = .ok root) :
    Patch.populate f h = .ok [] ↔
      root.content.isEmpty = true ∨ root.content = .bareBranch f.settings.placeholderKind := by
  simp only [Patch.populate, hr, bind, Except.bind, pure, Except.pure]
  split <;> simp_all

/-- **The first patch renders every tree**, whatever the kind of the placeholder. A new surface
takes all of it and then holds the rendering, or still the placeholder if there is no content.
No step is needed just where the placeholder does. -/
theorem populate_renders (hr : f.node h = .ok root) :
    ∃ patch, Patch.populate f h = .ok patch ∧
      (root.content.isEmpty = false → ∃ d, Document.ofRoot root = .ok d ∧
        (Document.placeholder f.settings).applyPatch patch = (d, none)) ∧
      (root.content.isEmpty = true →
        (Document.placeholder f.settings).applyPatch patch = (.placeholder f.settings, none)) ∧
      (patch = [] ↔ root.content.isEmpty = true ∨
        root.content = .bareBranch f.settings.placeholderKind) := by
  obtain ⟨patch, hpatch, happly⟩ := applyPatch_populate hr
  refine ⟨patch, hpatch, ?_, ?_, ?_⟩
  · intro hn
    exact ⟨_, Document.ofRoot_of_content f.settings hn, happly⟩
  · intro he
    rw [happly, Document.surface_of_empty he]
  · have hnil := populate_eq_nil_iff hr
    rwa [hpatch, Except.ok.injEq] at hnil

/-- A heading with a text, and a placeholder that is itself a heading. -/
def headingForest : Forest :=
  (Blueprint.build { arena := 0, settings := { placeholderKind := "heading" } } []
    (.branch "doc" [.branch "heading" [.leaf "x" none] none] none)).2.1

def headingSurface : Document :=
  ⟨.ofTokens [.opening "heading", .text "x", .closing "heading"], by decide, by decide⟩

theorem populate_renders_heading : ∃ patch,
    Patch.populate headingForest ⟨0, 2⟩ = .ok patch ∧ patch ≠ [] ∧
      (Document.placeholder headingForest.settings).applyPatch patch = (headingSurface, none) := by
  have hr : headingForest.node ⟨0, 2⟩ = .ok _ := rfl
  obtain ⟨patch, hpatch, hcontent, -, hnil⟩ := populate_renders hr
  obtain ⟨d, hd, happly⟩ := hcontent (by decide)
  obtain rfl : headingSurface = d := Except.ok.inj hd
  exact ⟨patch, hpatch, by rw [ne_eq, hnil]; decide, happly⟩

end TreePatch
