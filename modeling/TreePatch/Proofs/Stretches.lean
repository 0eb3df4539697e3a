import TreePatch.Removal
import TreePatch.Addition
import TreePatch.Proofs.Rendering

/-! Removals and additions read off a row of segments. The first of either splits the row in
three: a part in which nothing visible changes, the stretch it stands for, and the rest, to
which the others belong. -/

namespace TreePatch

open Segment

/-- A row that starts at a position comes apart: the middle part takes up the extent, and
nothing visible changes before it. -/
structure FirstStretch (position : Nat) (segments : List Segment) (e : Extent)
    (before middle after : List Segment) : Prop where
  row : segments = before ++ middle ++ after
  extent : e = ⟨position + totalWidth before, position + totalWidth before + totalWidth middle⟩
  visible : totalWidth middle ≠ 0
  still : ∀ s ∈ before, s.isChanged = true → s.width = 0

namespace FirstStretch

theorem here (position : Nat) {middle : List Segment} (after : List Segment)
    (h : totalWidth middle ≠ 0) :
    FirstStretch position (middle ++ after) ⟨position, position + totalWidth middle⟩ [] middle
      after :=
  ⟨rfl, by simp, h, by simp⟩

/-- The same stretch of a row with a still part in front. -/
theorem behind {position : Nat} {segments before middle after : List Segment} {e : Extent}
    (front : List Segment)
    (h : FirstStretch (position + totalWidth front) segments e before middle after)
    (hf : ∀ s ∈ front, s.isChanged = true → s.width = 0) :
    FirstStretch position (front ++ segments) e (front ++ before) middle after where
  row := by simp [h.row]
  extent := by rw [h.extent, totalWidth_append, Nat.add_assoc position]
  visible := h.visible
  still := by
    intro s hs
    rcases List.mem_append.mp hs with hs | hs
    · exact hf s hs
    · exact h.still s hs

end FirstStretch

namespace Removal

theorem still_of_ofSegments_eq_nil {settings : Settings} {position : Nat}
    {segments : List Segment} (h : ofSegments settings position segments = []) :
    ∀ s ∈ segments, s.isChanged = true → s.width = 0 := by
  induction segments generalizing position with
  | nil => simp
  | cons s ss ih =>
    cases s with
    | changed n =>
      simp only [ofSegments] at h
      split at h
      · rename_i hn
        simp only [List.forall_mem_cons]
        exact ⟨fun _ => hn, ih h⟩
      · unfold joinFront at h
        split at h
        · split at h <;> cases h
        · cases h
    | _ =>
      simp only [ofSegments] at h
      simp only [List.forall_mem_cons]
      exact ⟨fun hc => by simp [isChanged] at hc, ih h⟩

theorem joinFront_eq_cons {r q : Removal} {later rest : List Removal}
    (h : joinFront r later = q :: rest) :
    (q = r ∧ rest = later) ∨ ∃ next, later = next :: rest ∧ r.extent.stop = next.extent.start ∧
      q = { r with extent := ⟨r.extent.start, next.extent.stop⟩ } := by
  cases later with
  | nil =>
    simp only [joinFront, List.cons.injEq] at h
    exact Or.inl ⟨h.1.symm, h.2.symm⟩
  | cons next more =>
    simp only [joinFront] at h
    split at h
    · rename_i hj
      simp only [List.cons.injEq] at h
      exact Or.inr ⟨next, by rw [h.2], hj, h.1.symm⟩
    · simp only [List.cons.injEq] at h
      exact Or.inl ⟨h.1.symm, h.2.symm⟩

/-- The first removal and what the others belong to. -/
theorem ofSegments_eq_cons {settings : Settings} {position : Nat} {segments : List Segment}
    {r : Removal} {rs : List Removal} (h : ofSegments settings position segments = r :: rs) :
    ∃ before gone after, FirstStretch position segments r.extent before gone after ∧
      (∀ s ∈ gone, s.isChanged = false → s.width = 0) ∧
      rs = ofSegments settings r.extent.stop after := by
  induction segments generalizing position r rs with
  | nil => cases h
  | cons s ss ih =>
    have skip (hc : s.isChanged = true → s.width = 0)
        (hss : ofSegments settings (position + s.width) ss = r :: rs) :
        ∃ before gone after, FirstStretch position (s :: ss) r.extent before gone after ∧
          (∀ s ∈ gone, s.isChanged = false → s.width = 0) ∧
          rs = ofSegments settings r.extent.stop after := by
      obtain ⟨before, gone, after, hf, hg, hrs⟩ := ih hss
      exact ⟨s :: before, gone, after, FirstStretch.behind [s] (by simpa using hf)
        (by simpa using hc), hg, hrs⟩
    cases s with
    | opening kind => exact skip (by simp [isChanged]) h
    | closing kind => exact skip (by simp [isChanged]) h
    | kept n => exact skip (by simp [isChanged]) h
    | changed n =>
      simp only [ofSegments] at h
      split at h
      · rename_i hn
        exact skip (fun _ => hn) h
      · rename_i hn
        have alone : FirstStretch position (.changed n :: ss) ⟨position, position + n.span⟩ []
            [.changed n] ss := by
          have hv : totalWidth [.changed n] ≠ 0 := by simpa [width] using hn
          simpa [width] using FirstStretch.here position ss hv
        rcases joinFront_eq_cons h with ⟨rfl, rfl⟩ | ⟨next, hl, hj, rfl⟩
        · exact ⟨[], [.changed n], ss, alone, by simp [isChanged], rfl⟩
        · -- the next removal starts here: nothing between the two has any width
          obtain ⟨before, gone, after, hf, hg, hmore⟩ := ih hl
          have hz : totalWidth before = 0 := by
            rw [hf.extent] at hj
            simp only at hj
            omega
          refine ⟨[], .changed n :: before ++ gone, after, ?_, ?_, hmore⟩
          · have hv : totalWidth (.changed n :: before ++ gone) ≠ 0 := by
              simp only [List.cons_append, totalWidth_cons, width]
              omega
            have := FirstStretch.here position after hv
            simpa [hf.extent, hf.row, hz, width, Nat.add_assoc] using this
          · intro s hs hc
            simp only [List.cons_append, List.mem_cons, List.mem_append] at hs
            rcases hs with rfl | hs | hs
            · simp [isChanged] at hc
            · exact (totalWidth_eq_zero_iff before).mp hz s hs
            · exact hg s hs hc

end Removal

namespace Addition

@[simp] theorem close_none (stop : Nat) : close none stop = [] := rfl

/-- A run that has begun takes in the changed segments that follow. -/
theorem ofSegments_some (start position : Nat) (segments : List Segment) :
    ∃ run after, segments = run ++ after ∧ (∀ s ∈ run, s.isChanged = true) ∧
      ofSegments (some start) position segments =
        close (some start) (position + totalWidth run) ++
          ofSegments none (position + totalWidth run) after := by
  induction segments generalizing position with
  | nil => exact ⟨[], [], rfl, by simp, by simp [ofSegments]⟩
  | cons s ss ih =>
    cases s with
    | changed n =>
      obtain ⟨run, after, rfl, hr, he⟩ := ih (position + n.span)
      refine ⟨.changed n :: run, after, rfl, ?_, ?_⟩
      · simp only [List.forall_mem_cons]
        exact ⟨rfl, hr⟩
      · simp only [ofSegments, Option.getD_some, he, totalWidth_cons, width, Nat.add_assoc]
    | _ => exact ⟨[], _ :: ss, rfl, by simp, by simp [ofSegments]⟩

/-- A row that starts with a changed segment starts with a run of them. -/
theorem ofSegments_changed (position : Nat) (n : Node) (segments : List Segment) :
    ∃ run after, segments = run ++ after ∧ (∀ s ∈ run, s.isChanged = true) ∧
      ofSegments none position (.changed n :: segments) =
        close (some position) (position + totalWidth (.changed n :: run)) ++
          ofSegments none (position + totalWidth (.changed n :: run)) after := by
  obtain ⟨run, after, hs, hr, he⟩ := ofSegments_some position (position + n.span) segments
  refine ⟨run, after, hs, hr, ?_⟩
  simp only [ofSegments, Option.getD_none, he, totalWidth_cons, width, Nat.add_assoc]

theorem still_of_ofSegments_eq_nil {position : Nat} {segments : List Segment}
    (h : ofSegments none position segments = []) :
    ∀ s ∈ segments, s.isChanged = true → s.width = 0 := by
  -- a whole run goes at once, so the induction is on the length of the row
  induction hn : segments.length using Nat.strongRecOn generalizing position segments with
  | ind len ih =>
  cases segments with
  | nil => simp
  | cons s ss =>
    have hlt : ss.length < len := by rw [← hn]; simp
    cases s with
    | changed n =>
      obtain ⟨run, after, rfl, hr, he⟩ := ofSegments_changed position n ss
      rw [he, List.append_eq_nil_iff] at h
      have hz : totalWidth (.changed n :: run) = 0 := by
        have hc := h.1
        simp only [close] at hc
        split at hc
        · cases hc
        · omega
      rw [← List.cons_append]
      intro s hs hc
      rcases List.mem_append.mp hs with hs | hs
      · exact (totalWidth_eq_zero_iff _).mp hz s hs
      · exact ih after.length (by simp at hlt; omega) h.2 rfl s hs hc
    | _ =>
      simp only [ofSegments, close_none, List.nil_append] at h
      simp only [List.forall_mem_cons]
      exact ⟨fun hc => by simp [isChanged] at hc, ih ss.length hlt h rfl⟩

/-- The first addition and what the others belong to. -/
theorem ofSegments_eq_cons {position : Nat} {segments : List Segment} {e : Extent}
    {es : List Extent} (h : ofSegments none position segments = e :: es) :
    ∃ before fresh after, FirstStretch position segments e before fresh after ∧
      (∀ s ∈ fresh, s.isChanged = true) ∧ es = ofSegments none e.stop after := by
  induction hn : segments.length using Nat.strongRecOn generalizing position segments with
  | ind len ih =>
  cases segments with
  | nil => cases h
  | cons s ss =>
    have hlt : ss.length < len := by rw [← hn]; simp
    have skip (front rest : List Segment) (hr : s :: ss = front ++ rest)
        (hle : rest.length ≤ ss.length) (hc : ∀ s ∈ front, s.isChanged = true → s.width = 0)
        (hrest : ofSegments none (position + totalWidth front) rest = e :: es) :
        ∃ before fresh after, FirstStretch position (s :: ss) e before fresh after ∧
          (∀ s ∈ fresh, s.isChanged = true) ∧ es = ofSegments none e.stop after := by
      obtain ⟨before, fresh, after, hf, hfresh, hes⟩ := ih rest.length (by omega) hrest rfl
      exact ⟨front ++ before, fresh, after, hr ▸ hf.behind front hc, hfresh, hes⟩
    cases s with
    | opening kind => exact skip [.opening kind] ss rfl (by simp) (by simp [isChanged]) h
    | closing kind => exact skip [.closing kind] ss rfl (by simp) (by simp [isChanged]) h
    | kept n => exact skip [.kept n] ss rfl (by simp) (by simp [isChanged]) h
    | changed n =>
      obtain ⟨run, after, rfl, hr, he⟩ := ofSegments_changed position n ss
      rw [he] at h
      by_cases hz : totalWidth (.changed n :: run) = 0
      · refine skip (.changed n :: run) after rfl (by simp) ?_ ?_
        · exact fun s hs _ => (totalWidth_eq_zero_iff _).mp hz s hs
        · simpa [close, hz] using h
      · simp only [close] at h
        rw [if_pos (by omega), List.singleton_append, List.cons.injEq] at h
        obtain ⟨rfl, rfl⟩ := h
        refine ⟨[], .changed n :: run, after, FirstStretch.here position after hz, ?_, rfl⟩
        simp only [List.forall_mem_cons]
        exact ⟨rfl, hr⟩

end Addition
end TreePatch
