import TreePatch.Proofs.Ranges
import TreePatch.Proofs.RootReuse
import TreePatch.Proofs.Stamps

/-! The shape every patch between two roots has, and when there is none. Deletions come last to
first with something left between any two of them, then insertions first to last, none reaching
into the next (`between_shaped`). Both rows of extents are spaced because they are read off a
row of segments from left to right. -/

namespace TreePatch

open Segment

/-- Extents in order inside a stretch, each with a width, and the next a gap behind. -/
structure Extent.Spaced (gap start stop : Nat) (es : List Extent) : Prop where
  apart : es.Pairwise fun d e => d.stop + gap ≤ e.start
  inside : ∀ e ∈ es, start ≤ e.start ∧ e.start < e.stop ∧ e.stop ≤ stop

namespace Extent

variable {gap start stop : Nat} {e : Extent} {es : List Extent}

theorem spaced_nil (gap start stop : Nat) : Spaced gap start stop [] :=
  ⟨.nil, List.forall_mem_nil _⟩

theorem Spaced.cons (h : Spaced gap (e.stop + gap) stop es) (first : start ≤ e.start)
    (width : e.start < e.stop) (last : e.stop ≤ stop) : Spaced gap start stop (e :: es) where
  apart := List.pairwise_cons.mpr ⟨fun d hd => (h.inside d hd).1, h.apart⟩
  inside := by
    refine List.forall_mem_cons.mpr ⟨⟨first, width, last⟩, fun d hd => ?_⟩
    obtain ⟨hstart, hwidth, hstop⟩ := h.inside d hd
    exact ⟨by omega, hwidth, hstop⟩

theorem Spaced.weaken {start' stop' : Nat} (h : Spaced gap start stop es) (first : start' ≤ start)
    (last : stop ≤ stop') : Spaced gap start' stop' es where
  apart := h.apart
  inside d hd := by
    obtain ⟨hstart, hwidth, hstop⟩ := h.inside d hd
    exact ⟨by omega, hwidth, by omega⟩

/-- An extent that takes up the whole stretch is alone in it. -/
theorem Spaced.eq_singleton (h : Spaced 1 start stop es) (he : ⟨start, stop⟩ ∈ es) :
    es = [⟨start, stop⟩] := by
  obtain ⟨before, after, rfl⟩ := List.append_of_mem he
  obtain ⟨-, hafter, hbefore⟩ := List.pairwise_append.mp h.apart
  have hinside := h.inside
  simp only [List.mem_append, List.mem_cons] at hinside
  have hb : before = [] := by
    refine List.eq_nil_iff_forall_not_mem.mpr fun d hd => ?_
    have := hbefore d hd _ List.mem_cons_self
    have := hinside d (Or.inl hd)
    simp only at *
    omega
  have ha : after = [] := by
    refine List.eq_nil_iff_forall_not_mem.mpr fun d hd => ?_
    have := (List.pairwise_cons.mp hafter).1 d hd
    have := hinside d (Or.inr (Or.inr hd))
    simp only at *
    omega
  rw [ha, hb, List.nil_append]

end Extent

namespace Removal

/-- A removal put in front of spaced ones joins the next or keeps its distance. -/
theorem spaced_joinFront {r : Removal} {rs : List Removal} {stop : Nat}
    (h : Extent.Spaced 1 r.extent.stop stop (rs.map extent))
    (width : r.extent.start < r.extent.stop) (last : r.extent.stop ≤ stop) :
    Extent.Spaced 1 r.extent.start stop ((joinFront r rs).map extent) := by
  cases rs with
  | nil => exact (Extent.spaced_nil _ _ _).cons (Nat.le_refl _) width last
  | cons next rs =>
    obtain ⟨hstart, hwidth, hstop⟩ := h.inside next.extent List.mem_cons_self
    obtain ⟨hnext, hrest⟩ := List.pairwise_cons.mp h.apart
    have hinside := (List.forall_mem_cons.mp h.inside).2
    have hafter : Extent.Spaced 1 (next.extent.stop + 1) stop (rs.map extent) :=
      ⟨hrest, fun e he => ⟨hnext e he, (hinside e he).2⟩⟩
    simp only [joinFront]
    split
    · have hlong : r.extent.start < next.extent.stop := by omega
      exact Extent.Spaced.cons (e := ⟨r.extent.start, _⟩) hafter (Nat.le_refl _) hlong hstop
    · have hfar : Extent.Spaced 1 (r.extent.stop + 1) stop (next.extent :: rs.map extent) :=
        hafter.cons (by omega) hwidth hstop
      exact hfar.cons (Nat.le_refl _) width last

/-- Removals never touch each other. -/
theorem spaced_ofSegments (settings : Settings) (position : Nat) (segments : List Segment) :
    Extent.Spaced 1 position (position + totalWidth segments)
      ((ofSegments settings position segments).map extent) := by
  induction segments generalizing position with
  | nil => exact Extent.spaced_nil _ _ _
  | cons s ss ih =>
    have hrest := ih (position + s.width)
    rw [totalWidth_cons, ← Nat.add_assoc]
    cases s with
    | changed n =>
      simp only [ofSegments]
      split
      · exact hrest.weaken (Nat.le_add_right _ _) (Nat.le_refl _)
      · rename_i hn
        have hlast : position + n.span ≤ position + n.span + totalWidth ss := Nat.le_add_right _ _
        exact spaced_joinFront (r := ⟨⟨position, position + n.span⟩, kindOf settings n⟩) hrest
          (Nat.lt_add_of_pos_right (Nat.pos_of_ne_zero hn)) hlast
    | _ => exact hrest.weaken (Nat.le_add_right _ _) (Nat.le_refl _)

end Removal

namespace Addition

/-- Additions do not reach into each other. -/
theorem spaced_ofSegments (position : Nat) (segments : List Segment) :
    Extent.Spaced 0 position (position + totalWidth segments)
      (ofSegments none position segments) := by
  generalize h : ofSegments none position segments = es
  induction es generalizing position segments with
  | nil => exact Extent.spaced_nil _ _ _
  | cons e es ih =>
    obtain ⟨before, fresh, after, hf, -, hes⟩ := ofSegments_eq_cons h
    have hrest := ih e.stop after hes.symm
    have hv := hf.visible
    have hwidth : totalWidth segments =
        totalWidth before + totalWidth fresh + totalWidth after := by
      rw [hf.row, totalWidth_append, totalWidth_append]
    have hstart : e.start = position + totalWidth before := by rw [hf.extent]
    have hstop : e.stop = e.start + totalWidth fresh := by rw [hf.extent]
    have hfar : Extent.Spaced 0 (e.stop + 0) (position + totalWidth segments) es :=
      hrest.weaken (Nat.le_refl _) (by omega)
    exact hfar.cons (by omega) (by omega) (by omega)

end Addition

namespace Patch

/-- Deletions last to first, apart from each other and inside the old content, and then insertions
first to last, of what the new content has there. Only a deletion of the whole puts something in
its place, and it is the only one. -/
structure Shaped (patch : Patch) (old new : Node) : Prop where
  order : ∃ deletions insertions, patch = deletions ++ insertions ∧
    (∀ step ∈ deletions, ∃ start stop filler, step = .delete start stop filler) ∧
    ∀ step ∈ insertions, ∃ position inside, step = .insert position inside
  removed : Extent.Spaced 1 0 old.innerSpan (patch.filterMap Step.removed?).reverse
  added : Extent.Spaced 0 0 new.innerSpan (patch.filterMap Step.added?)
  inserted : ∀ position inside, .insert position inside ∈ patch →
    inside.size ≠ 0 ∧ new.content.slice ⟨position, position + inside.size⟩ = .ok inside
  replaced : ∀ start stop filler, .delete start stop (some filler) ∈ patch →
    start = 0 ∧ stop = old.innerSpan ∧ patch.filterMap Step.removed? = [⟨start, stop⟩]

variable {f : Forest} {p c : Handle} {old new : Node} {patch : Patch}

/-- A patch between two roots is assembled from their settled rows. -/
theorem between_eq_assemble (hp : f.node p = .ok old) (hc : f.node c = .ok new)
    (next : new.born = old.born + 1) :
    between f p c = assemble f.settings old.innerSpan new.content
      (Removal.ofSegments f.settings 0 (f.settled old new).old)
      (Addition.ofSegments none 0 (f.settled old new).new) := by
  simp only [between, hp, hc, bind, Except.bind, next, ne_eq, not_true_eq_false, ↓reduceIte]
  rfl

theorem deletions_only (whole : Extent) (filler : Fragment) (removals : List Removal) :
    ∀ step ∈ deletions whole filler removals, ∃ start stop filling,
      step = .delete start stop filling := by
  intro step hs
  obtain ⟨r, -, rfl⟩ := List.mem_map.mp hs
  exact ⟨_, _, _, rfl⟩

theorem whole_of_delete_mem {whole : Extent} {filler filling : Fragment}
    {removals : List Removal} {start stop : Nat}
    (h : .delete start stop (some filling) ∈ deletions whole filler removals) :
    whole = ⟨start, stop⟩ ∧ whole ∈ removals.map Removal.extent := by
  obtain ⟨r, hr, he⟩ := List.mem_map.mp h
  simp only [Step.delete.injEq, Option.ite_none_right_eq_some] at he
  obtain ⟨rfl, rfl, hwhole, -⟩ := he
  exact ⟨hwhole.symm, hwhole ▸ List.mem_map_of_mem (List.mem_reverse.mp hr)⟩

/-- An assembled patch has its shape from the rows it was given. -/
theorem shaped_of_assemble {settings : Settings} {removals : List Removal}
    {additions : List Extent}
    (removed : Extent.Spaced 1 0 old.innerSpan (removals.map Removal.extent))
    (added : Extent.Spaced 0 0 new.innerSpan additions)
    (h : assemble settings old.innerSpan new.content removals additions = .ok patch) :
    patch.Shaped old new := by
  have hmakes := makes_of_assemble h
  have hadded : Extent.Spaced 0 0 new.innerSpan (patch.filterMap Step.added?) := by
    rcases hmakes.added with he | ⟨first, filler, he, -⟩
    · rwa [he]
    · rw [he] at added
      exact ⟨(List.pairwise_cons.mp added.apart).2, (List.forall_mem_cons.mp added.inside).2⟩
  obtain ⟨filler, rest, later, hpatch, hl, -⟩ := assemble_eq_ok h
  constructor
  · exact ⟨_, later, hpatch, deletions_only _ filler removals, insertions_only hl⟩
  · rwa [hmakes.removed, List.reverse_reverse]
  · exact hadded
  · intro position inside hmem
    have hin : ⟨position, position + inside.size⟩ ∈ patch.filterMap Step.added? :=
      List.mem_filterMap.mpr ⟨_, hmem, rfl⟩
    have hwidth := (hadded.inside _ hin).2.1
    exact ⟨by simp only at hwidth; omega, hmakes.inserted position inside hmem⟩
  · intro start stop filling hmem
    rw [hpatch] at hmem
    rcases List.mem_append.mp hmem with hmem | hmem
    · obtain ⟨hwhole, hin⟩ := whole_of_delete_mem hmem
      obtain ⟨rfl, rfl⟩ := Extent.mk.inj hwhole
      exact ⟨rfl, rfl, by rw [hmakes.removed, removed.eq_singleton hin]; rfl⟩
    · obtain ⟨position, inside, he⟩ := insertions_only hl _ hmem
      cases he

end Patch

namespace Forest

variable {f : Forest} {p c : Handle} {old new : Node}

/-- What goes of an old root lies inside it: there is nothing to remove if the root stays whole. -/
theorem Sound.spaced_removals (hf : f.Sound) (hp : f.node p = .ok old) :
    Extent.Spaced 1 0 old.innerSpan
      ((Removal.ofSegments f.settings 0 (f.settled old new).old).map Removal.extent) := by
  by_cases hroot : f.RootKept old new
  · rw [old_settled_of_rootKept hroot]
    exact Extent.spaced_nil _ _ _
  · have hwidth : totalWidth (f.settled old new).old = old.innerSpan := by
      rw [← size_rendering (hf.sized_old hp), rendering_old hroot,
        Node.size_content (hf.sized_node hp)]
    have hspaced := Removal.spaced_ofSegments f.settings 0 (f.settled old new).old
    rwa [hwidth, Nat.zero_add] at hspaced

theorem Sound.spaced_additions (hf : f.Sound) (hc : f.node c = .ok new) :
    Extent.Spaced 0 0 new.innerSpan (Addition.ofSegments none 0 (f.settled old new).new) := by
  have hwidth : totalWidth (f.settled old new).new = new.innerSpan := by
    rw [← size_rendering (hf.sized_new hc), rendering_new, Node.size_content (hf.sized_node hc)]
  have hspaced := Addition.spaced_ofSegments 0 (f.settled old new).new
  rwa [hwidth, Nat.zero_add] at hspaced

end Forest

/-- **Patches of one shape.** There is no patch just if a root is not there, the old one looked for
first, or if the second was not built one generation after the first. Otherwise there always is
one, and it has its shape. -/
theorem between_shaped {f : Forest} (hf : f.Reachable) (p c : Handle) :
    ((∀ n, f.node p ≠ .ok n) → Patch.between f p c = .error (.unknownNode p)) ∧
    ∀ old, f.node p = .ok old →
      ((∀ n, f.node c ≠ .ok n) → Patch.between f p c = .error (.unknownNode c)) ∧
      ∀ new, f.node c = .ok new →
        (new.born ≠ old.born + 1 →
          Patch.between f p c = .error (.notSuccessive old.born new.born)) ∧
        (new.born = old.born + 1 →
          ∃ patch, Patch.between f p c = .ok patch ∧ patch.Shaped old new) := by
  have missing {h : Handle} (hn : ∀ n, f.node h ≠ .ok n) : f.node h = .error (.unknownNode h) :=
    (f.node_eq_error_iff h _).mpr ⟨(f.find?_eq_none_iff h).mpr hn, rfl⟩
  refine ⟨fun hp => ?_, fun old hp => ⟨fun hc => ?_, fun new hc => ⟨fun hne => ?_, fun next => ?_⟩⟩⟩
  · simp [Patch.between, missing hp, bind, Except.bind]
  · simp [Patch.between, hp, missing hc, bind, Except.bind]
  · simp [Patch.between, hp, hc, hne, bind, Except.bind, throw, throwThe, MonadExceptOf.throw]
  · obtain ⟨patch, hpatch⟩ := hf.sound.between_ok hp hc next
    refine ⟨patch, hpatch, ?_⟩
    rw [Patch.between_eq_assemble hp hc next] at hpatch
    exact Patch.shaped_of_assemble (hf.sound.spaced_removals hp) (hf.sound.spaced_additions hc)
      hpatch

/-- Either root missing, the roots the wrong way round, and a patch with its shape. -/
theorem between_shaped_moved :
    Patch.between movedForest ⟨1, 0⟩ ⟨0, 9⟩ = .error (.unknownNode ⟨1, 0⟩) ∧
    Patch.between movedForest ⟨0, 3⟩ ⟨0, 9⟩ = .error (.unknownNode ⟨0, 9⟩) ∧
    Patch.between movedForest ⟨0, 5⟩ ⟨0, 3⟩ = .error (.notSuccessive 1 0) ∧
    ∃ old new patch, movedForest.node ⟨0, 3⟩ = .ok old ∧ movedForest.node ⟨0, 5⟩ = .ok new ∧
      Patch.between movedForest ⟨0, 3⟩ ⟨0, 5⟩ = .ok patch ∧ patch.Shaped old new := by
  have hreach : movedForest.Reachable := Scripted.reachable_forest _
  have hp : movedForest.node ⟨0, 3⟩ = .ok _ := rfl
  have hc : movedForest.node ⟨0, 5⟩ = .ok _ := rfl
  have habroad : ∀ n, movedForest.node ⟨1, 0⟩ ≠ .ok n := by rintro n ⟨⟩
  have hlater : ∀ n, movedForest.node ⟨0, 9⟩ ≠ .ok n := by rintro n ⟨⟩
  have hfrom := (between_shaped hreach ⟨0, 3⟩ ⟨0, 5⟩).2 _ hp
  obtain ⟨patch, hpatch, hshape⟩ := (hfrom.2 _ hc).2 rfl
  refine ⟨?_, ?_, ?_, _, _, patch, hp, hc, hpatch, hshape⟩
  · exact (between_shaped hreach ⟨1, 0⟩ ⟨0, 9⟩).1 habroad
  · exact ((between_shaped hreach ⟨0, 3⟩ ⟨0, 9⟩).2 _ hp).1 hlater
  · exact (((between_shaped hreach ⟨0, 5⟩ ⟨0, 3⟩).2 _ hc).2 _ hp).1 (by decide)

end TreePatch
