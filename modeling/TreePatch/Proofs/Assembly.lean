import TreePatch.Patch
import TreePatch.Proofs.Stretches

/-! What an assembled patch does to a surface, told from two rows of segments with the same
remnant. The deletions lead from the old row to the remnant, the insertions from there to the
new row (`takes_assemble`). Only where all visible content goes can something be left over:
the placeholder that fills the gap, unless the first addition takes its place. -/

namespace TreePatch

open Segment

namespace Segment

/-- Nothing visible is kept of the row. -/
def Cleared (segments : List Segment) : Prop :=
  ∀ s ∈ segments, s.isChanged = false → s.width = 0

instance (segments : List Segment) : Decidable (Cleared segments) :=
  inferInstanceAs (Decidable (∀ s ∈ segments, s.isChanged = false → s.width = 0))

theorem Cleared.matched {segments : List Segment} (h : Cleared segments) :
    (rendering segments).Matched := by
  refine matched_rendering fun s hs => ?_
  have := h s hs
  cases s <;> simp_all [isChanged, width, node?]

theorem remnant_eq_empty_iff {segments : List Segment} (h : ∀ s ∈ segments, s.Sized) :
    remnant segments = .empty ↔ Cleared segments := by
  refine ⟨fun he s hs hc => ?_, remnant_eq_empty h⟩
  have hsize : (remnant segments).size = 0 := by rw [he]; rfl
  rw [remnant, size_rendering (fun s hs => h s (List.mem_filter.mp hs).1),
    totalWidth_eq_zero_iff] at hsize
  exact hsize s (List.mem_filter.mpr ⟨hs, by simp [hc]⟩)

/-- Changed subtrees have no part in the matching of what is around them. -/
theorem matched_remnant_iff (segments : List Segment) :
    (remnant segments).Matched ↔ (rendering segments).Matched := by
  simp only [remnant, rendering, Fragment.matched_ofTokens_iff]
  suffices h : ∀ pending, openAfter pending
      ((segments.filter fun s => !s.isChanged).flatMap tokens) =
        openAfter pending (segments.flatMap tokens) by rw [h]
  induction segments with
  | nil => simp
  | cons s ss ih =>
    intro pending
    cases s with
    | changed n =>
      simp only [List.flatMap_cons, tokens, openAfter_append, Node.openAfter_tokens]
      exact ih pending
    | _ =>
      simp only [isChanged, Bool.not_false, List.filter_cons_of_pos, List.flatMap_cons,
        openAfter_append]
      congr 1
      funext left
      exact ih left

end Segment

namespace FirstStretch

variable {position : Nat} {segments before middle after : List Segment} {e : Extent}

theorem rendering_eq (h : FirstStretch position segments e before middle after) :
    rendering segments = rendering before ++ rendering middle ++ rendering after := by
  rw [h.row, rendering_append, rendering_append]

theorem remnant_eq (h : FirstStretch position segments e before middle after)
    (sized : ∀ s ∈ segments, s.Sized) (hm : Cleared middle) :
    remnant segments = rendering before ++ remnant after := by
  rw [h.row] at sized ⊢
  simp only [List.mem_append] at sized
  rw [remnant_append, remnant_append,
    remnant_eq_empty (fun s hs => sized s (Or.inl (Or.inr hs))) hm, Fragment.append_empty,
    remnant_eq_rendering (fun s hs => sized s (Or.inl (Or.inl hs))) h.still]

theorem extent_eq {f : Fragment} (h : FirstStretch f.size segments e before middle after)
    (sized : ∀ s ∈ segments, s.Sized) :
    e = ⟨(f ++ rendering before).size,
      (f ++ rendering before).size + (rendering middle).size⟩ := by
  have hrow := h.row
  rw [hrow] at sized
  simp only [List.mem_append] at sized
  rw [h.extent, Fragment.size_append, size_rendering fun s hs => sized s (Or.inl (Or.inl hs)),
    size_rendering fun s hs => sized s (Or.inl (Or.inr hs))]

end FirstStretch

namespace Patch

/-- A fit content stays fit with a matched piece put in. -/
theorem fit_insert {x : Fragment} (hx : x.Matched) {f g : Fragment} (h : (f ++ g).Fit) :
    (f ++ x ++ g).Fit := by
  refine ⟨?_, (Fragment.matched_insert hx f g).mpr h.2⟩
  have := h.1
  simp only [Fragment.size_append] at this ⊢
  omega

/-- **Deletions.** Last to first they lead to the remnant. -/
theorem takes_deletions (settings : Settings) {segments : List Segment} {rs : List Removal}
    (sized : ∀ s ∈ segments, s.Sized) (f g : Fragment)
    (h : Removal.ofSegments settings f.size segments = rs)
    (fit : (f ++ remnant segments ++ g).Fit) :
    Takes (rs.reverse.map fun r => .delete r.extent.start r.extent.stop none)
      (f ++ rendering segments ++ g) (f ++ remnant segments ++ g) := by
  induction rs generalizing segments f with
  | nil =>
    rw [remnant_eq_rendering sized (Removal.still_of_ofSegments_eq_nil h)]
    exact takes_nil _
  | cons r rs ih =>
    obtain ⟨before, gone, after, hf, hg, hrs⟩ := Removal.ofSegments_eq_cons h
    have hgone : (rendering gone).Matched := Cleared.matched hg
    have hrem := hf.remnant_eq sized hg
    have hext := hf.extent_eq sized
    have hafter : ∀ s ∈ after, s.Sized := fun s hs => sized s (by simp [hf.row, hs])
    have fit' : (f ++ rendering before ++ (remnant after ++ g)).Fit := by
      simpa [hrem, Fragment.append_assoc] using fit
    have later := ih hafter (f ++ rendering before ++ rendering gone)
      (by rw [hrs, hext, Fragment.size_append (f ++ rendering before)])
      (by simpa [Fragment.append_assoc] using fit_insert hgone fit')
    have last := takes_delete (f ++ rendering before) (rendering gone) (remnant after ++ g) none
      (by simpa using fit')
    simp only [List.reverse_cons, List.map_append, List.map_cons, List.map_nil, hext]
    rw [hf.rendering_eq, hrem]
    refine Takes.append (g := f ++ rendering before ++ rendering gone ++ remnant after ++ g) ?_ ?_
    · simpa only [Fragment.append_assoc] using later
    · simpa only [Option.getD_none, Fragment.append_empty, Fragment.append_assoc] using last

/-- **Insertions.** First to last they lead from the remnant to the whole row. -/
theorem takes_insertions {segments : List Segment} {es : List Extent}
    (sized : ∀ s ∈ segments, s.Sized) (f g : Fragment)
    (h : Addition.ofSegments none f.size segments = es) (fit : (f ++ remnant segments ++ g).Fit) :
    ∃ patch, insertions (f ++ rendering segments) es = .ok patch ∧
      Takes patch (f ++ remnant segments ++ g) (f ++ rendering segments ++ g) := by
  induction es generalizing segments f with
  | nil =>
    rw [remnant_eq_rendering sized (Addition.still_of_ofSegments_eq_nil h)]
    exact ⟨[], rfl, takes_nil _⟩
  | cons e es ih =>
    obtain ⟨before, fresh, after, hf, hg, hes⟩ := Addition.ofSegments_eq_cons h
    have hcleared : Cleared fresh := fun s hs hc => by rw [hg s hs] at hc; cases hc
    have hrem := hf.remnant_eq sized hcleared
    have hext := hf.extent_eq sized
    have hafter : ∀ s ∈ after, s.Sized := fun s hs => sized s (by simp [hf.row, hs])
    have fit' : (f ++ rendering before ++ (remnant after ++ g)).Fit := by
      simpa [hrem, Fragment.append_assoc] using fit
    have fit'' := fit_insert hcleared.matched fit'
    obtain ⟨patch, hp, later⟩ := ih hafter (f ++ rendering before ++ rendering fresh)
      (by rw [hes, hext, Fragment.size_append (f ++ rendering before)])
      (by simpa [Fragment.append_assoc] using fit'')
    have first := takes_insert (f ++ rendering before) (rendering fresh) (remnant after ++ g) fit''
    have hslice : (f ++ rendering segments).slice e = .ok (rendering fresh) := by
      rw [hext, hf.rendering_eq]
      simpa only [Fragment.append_assoc] using
        Fragment.slice_append (f ++ rendering before) (rendering fresh) (rendering after)
    refine ⟨.insert e.start (rendering fresh) :: patch, ?_, ?_⟩
    · have hrow : f ++ rendering before ++ rendering fresh ++ rendering after =
          f ++ rendering segments := by rw [hf.rendering_eq]; simp only [Fragment.append_assoc]
      rw [hrow] at hp
      simp only [insertions, hslice, hp, bind, Except.bind, pure, Except.pure]
    · rw [hf.rendering_eq, hrem, hext]
      refine Takes.append (a := [_]) (g := f ++ rendering before ++ rendering fresh ++
        remnant after ++ g) ?_ ?_
      · simpa only [Fragment.append_assoc] using first
      · simpa only [Fragment.append_assoc] using later

/-! ## When all visible content goes -/

end Patch

namespace Removal

theorem start_le {settings : Settings} {position : Nat} {segments : List Segment} :
    ∀ r ∈ ofSegments settings position segments, position ≤ r.extent.start := by
  generalize h : ofSegments settings position segments = rs
  induction rs generalizing position segments with
  | nil => simp
  | cons r rs ih =>
    obtain ⟨before, gone, after, hf, -, hrs⟩ := ofSegments_eq_cons h
    have hstart : position ≤ r.extent.start := by rw [hf.extent]; simp
    have hstop : position ≤ r.extent.stop := by
      rw [hf.extent]
      simp only [Nat.add_assoc]
      omega
    simp only [List.forall_mem_cons]
    exact ⟨hstart, fun q hq => Nat.le_trans hstop (ih hrs.symm q hq)⟩

/-- A removal of the whole row leaves nothing visible. -/
theorem cleared_of_whole {settings : Settings} {segments : List Segment} {r : Removal}
    (h : r ∈ ofSegments settings 0 segments) (hr : r.extent = ⟨0, totalWidth segments⟩) :
    Cleared segments ∧ totalWidth segments ≠ 0 := by
  generalize hq : ofSegments settings 0 segments = rs at h
  cases rs with
  | nil => cases h
  | cons q rs =>
    obtain ⟨before, gone, after, hf, hg, hrs⟩ := ofSegments_eq_cons hq
    have hv := hf.visible
    have hext := hf.extent
    rcases List.mem_cons.mp h with rfl | h
    · rw [hr, Extent.mk.injEq] at hext
      have htotal : totalWidth segments =
          totalWidth before + totalWidth gone + totalWidth after := by
        rw [hf.row, totalWidth_append, totalWidth_append]
      have hb := (totalWidth_eq_zero_iff before).mp (by omega)
      have ha := (totalWidth_eq_zero_iff after).mp (by omega)
      refine ⟨fun s hs hc => ?_, by omega⟩
      rw [hf.row] at hs
      simp only [List.mem_append] at hs
      rcases hs with (hs | hs) | hs
      · exact hb s hs
      · exact hg s hs hc
      · exact ha s hs
    · -- a later removal starts behind the first, which has a width
      have hle := start_le r (hrs ▸ h)
      rw [hext, hr] at hle
      simp only at hle
      omega

theorem ofSegments_eq_nil (settings : Settings) (position : Nat) {segments : List Segment}
    (h : totalWidth segments = 0) : ofSegments settings position segments = [] := by
  induction segments generalizing position with
  | nil => rfl
  | cons s ss ih =>
    rw [totalWidth_cons] at h
    have hrest := ih (position + s.width) (by omega)
    cases s with
    | changed n =>
      have hn : n.span = 0 := by simp only [width] at h; omega
      simp only [ofSegments, hn, ↓reduceIte]
      simpa [width, hn] using hrest
    | _ => exact hrest

/-- Where nothing visible is kept, one removal takes the whole row. -/
theorem ofSegments_cleared (settings : Settings) (position : Nat) {segments : List Segment}
    (hc : Cleared segments) (hw : totalWidth segments ≠ 0) :
    ∃ kind, ofSegments settings position segments =
      [⟨⟨position, position + totalWidth segments⟩, kind⟩] := by
  induction segments generalizing position with
  | nil => simp at hw
  | cons s ss ih =>
    have hss : Cleared ss := fun t ht => hc t (List.mem_cons_of_mem _ ht)
    cases hs : s.isChanged with
    | false =>
      have hz := hc s List.mem_cons_self hs
      rw [totalWidth_cons, hz, Nat.zero_add] at hw ⊢
      obtain ⟨kind, he⟩ := ih position hss hw
      refine ⟨kind, ?_⟩
      cases s <;> simp_all [isChanged, width, ofSegments]
    | true =>
      obtain ⟨n, rfl⟩ : ∃ n, s = .changed n := by cases s <;> simp_all [isChanged]
      simp only [totalWidth_cons, width] at hw ⊢
      by_cases hn : n.span = 0
      · obtain ⟨kind, he⟩ := ih position hss (by omega)
        exact ⟨kind, by simp [ofSegments, hn, he]⟩
      · by_cases hz : totalWidth ss = 0
        · exact ⟨kindOf settings n, by simp [ofSegments, hn, hz, ofSegments_eq_nil, joinFront]⟩
        · obtain ⟨kind, he⟩ := ih (position + n.span) hss hz
          exact ⟨kindOf settings n, by simp [ofSegments, hn, he, joinFront, Nat.add_assoc]⟩

end Removal

namespace Patch

/-- The first addition is the whole new content or a placeholder. -/
def Fills (settings : Settings) (content : Fragment) : List Extent → Prop
  | [] => False
  | e :: _ => e.stop = content.size ∨
      (content.slice e).toOption = some (.bareBranch settings.placeholderKind)

instance (settings : Settings) (content : Fragment) (additions : List Extent) :
    Decidable (Fills settings content additions) :=
  match additions with
  | [] => inferInstanceAs (Decidable False)
  | e :: _ => inferInstanceAs (Decidable (e.stop = content.size ∨
      (content.slice e).toOption = some (.bareBranch settings.placeholderKind)))

/-- All visible content goes, and no addition takes its place. -/
def Strands (settings : Settings) (old new : List Segment) : Prop :=
  Cleared old ∧ totalWidth old ≠ 0 ∧
    ¬ Fills settings (rendering new) (Addition.ofSegments none 0 new)

instance (settings : Settings) (old new : List Segment) : Decidable (Strands settings old new) :=
  inferInstanceAs (Decidable (_ ∧ _ ∧ _))

/-- What stays of the filling behind the new content. -/
def leftover (settings : Settings) (old new : List Segment) : Fragment :=
  if Strands settings old new then .bareBranch settings.placeholderKind else .empty

variable {settings : Settings} {old new : List Segment}

theorem deletions_of_no_whole {whole : Extent} {replacement : Fragment} {removals : List Removal}
    (h : removals.any (·.extent = whole) = false) :
    deletions whole replacement removals =
      removals.reverse.map fun r => .delete r.extent.start r.extent.stop none := by
  refine List.map_congr_left fun r hr => ?_
  have := List.any_eq_false.mp h r (List.mem_reverse.mp hr)
  simp only [decide_eq_true_eq] at this
  simp [this]

/-- The deletion of all visible content puts something fit in its place. -/
theorem takes_refill (sized : ∀ s ∈ old, s.Sized) {filler g : Fragment} (h : (filler ++ g).Fit) :
    Takes [.delete 0 (totalWidth old) (some filler)] (rendering old ++ g) (filler ++ g) := by
  have := takes_delete .empty (rendering old) g (some filler) (by simpa using h)
  simpa [size_rendering sized] using this

theorem assemble_of_kept (content : Fragment) (adds : List Extent)
    (h : ¬ (Cleared old ∧ totalWidth old ≠ 0)) :
    assemble settings (totalWidth old) content (Removal.ofSegments settings 0 old) adds =
      (insertions content adds).map fun later =>
        ((Removal.ofSegments settings 0 old).reverse.map fun r =>
          .delete r.extent.start r.extent.stop none) ++ later := by
  have hany : (Removal.ofSegments settings 0 old).any
      (·.extent = (⟨0, totalWidth old⟩ : Extent)) = false := by
    rw [List.any_eq_false]
    intro r hr he
    exact h (Removal.cleared_of_whole hr (by simpa using he))
  simp only [assemble, hany, Bool.false_eq_true, ↓reduceIte, deletions_of_no_whole hany]
  cases insertions content adds <;> rfl

theorem assemble_of_cleared {content filler : Fragment} {adds left : List Extent} {later : Patch}
    (hc : Cleared old) (hw : totalWidth old ≠ 0)
    (hf : filling settings content adds = .ok (filler, left))
    (hl : insertions content left = .ok later) :
    assemble settings (totalWidth old) content (Removal.ofSegments settings 0 old) adds =
      .ok (.delete 0 (totalWidth old) (some filler) :: later) := by
  obtain ⟨kind, he⟩ := Removal.ofSegments_cleared settings 0 hc hw
  rw [Nat.zero_add] at he
  simp [assemble, he, hf, hl, deletions, bind, Except.bind, pure, Except.pure]

/-- In a row that keeps nothing visible the first addition starts at once. -/
theorem first_of_cleared {e : Extent} {before fresh after : List Segment}
    (sized : ∀ s ∈ new, s.Sized) (hc : Cleared new)
    (hf : FirstStretch 0 new e before fresh after) :
    e = ⟨0, (rendering fresh).size⟩ ∧ rendering new = rendering fresh ++ rendering after := by
  have hz : totalWidth before = 0 := by
    rw [totalWidth_eq_zero_iff]
    intro s hs
    cases hs' : s.isChanged with
    | true => exact hf.still s hs hs'
    | false => exact hc s (by simp [hf.row, hs]) hs'
  have hb : rendering before = .empty :=
    rendering_eq_empty (fun s hs => sized s (by simp [hf.row, hs])) hz
  have hext := FirstStretch.extent_eq (f := .empty) hf sized
  have hrow := hf.rendering_eq
  rw [hb] at hext hrow
  exact ⟨by simpa using hext, by simpa using hrow⟩

theorem filling_of_fills {content first : Fragment} {e : Extent} {es : List Extent}
    (h0 : e.start = 0) (hs : content.slice e = .ok first)
    (h : Fills settings content (e :: es)) :
    filling settings content (e :: es) = .ok (first, es) := by
  have hcond : e.stop = content.size ∨ first = .bareBranch settings.placeholderKind := by
    simpa [Fills, hs, Except.toOption] using h
  simp [filling, h0, hs, hcond, bind, Except.bind, pure, Except.pure]

theorem filling_of_not_fills {content first : Fragment} {e : Extent} {es : List Extent}
    (h0 : e.start = 0) (hs : content.slice e = .ok first)
    (h : ¬ Fills settings content (e :: es)) :
    filling settings content (e :: es) =
      .ok (.bareBranch settings.placeholderKind, e :: es) := by
  have hcond : ¬ (e.stop = content.size ∨ first = .bareBranch settings.placeholderKind) := by
    simpa [Fills, hs, Except.toOption] using h
  simp [filling, h0, hs, hcond, bind, Except.bind, pure, Except.pure]

/-- Where all visible content goes, the new row comes in its place or before a placeholder. -/
theorem takes_assemble_cleared (settings : Settings) (ho : ∀ s ∈ old, s.Sized)
    (hn : ∀ s ∈ new, s.Sized) (hc : Cleared old) (hw : totalWidth old ≠ 0) (hcnew : Cleared new)
    {g : Fragment} (hg : g.Matched) :
    ∃ patch, assemble settings (totalWidth old) (rendering new)
        (Removal.ofSegments settings 0 old) (Addition.ofSegments none 0 new) = .ok patch ∧
      Takes patch (rendering old ++ g) (rendering new ++ leftover settings old new ++ g) := by
  have hnew : remnant new = .empty := (remnant_eq_empty_iff hn).mpr hcnew
  have hplace : (.bareBranch settings.placeholderKind ++ g : Fragment).Fit :=
    ⟨by simp, (Fragment.matched_bareBranch _).append hg⟩
  cases hadds : Addition.ofSegments none 0 new with
  | nil =>
    have hempty : rendering new = .empty := by
      rw [← hnew, remnant_eq_rendering hn (Addition.still_of_ofSegments_eq_nil hadds)]
    have hstrands : Strands settings old new := ⟨hc, hw, by rw [hadds]; exact id⟩
    have hl : insertions (rendering new) [] = .ok [] := rfl
    refine ⟨_, assemble_of_cleared hc hw rfl hl, ?_⟩
    simpa [leftover, hstrands, hempty] using takes_refill ho hplace
  | cons e es =>
    obtain ⟨before, fresh, after, hf, hfresh, hes⟩ := Addition.ofSegments_eq_cons hadds
    obtain ⟨rfl, hrow⟩ := first_of_cleared hn hcnew hf
    have hslice : (rendering new).slice ⟨0, (rendering fresh).size⟩ = .ok (rendering fresh) := by
      simpa [hrow] using Fragment.slice_append .empty (rendering fresh) (rendering after)
    have hafter : ∀ s ∈ after, s.Sized := fun s hs => hn s (by simp [hf.row, hs])
    by_cases hfill : Fills settings (rendering new) (⟨0, (rendering fresh).size⟩ :: es)
    · -- the first addition takes the place of all that goes
      have hstrands : ¬ Strands settings old new := fun h => h.2.2 (hadds ▸ hfill)
      have hmid : remnant after = .empty := remnant_eq_empty hafter fun s hs =>
        hcnew s (by simp [hf.row, hs])
      have hfit : (rendering fresh ++ g).Fit := by
        have hm : (rendering fresh).Matched :=
          Cleared.matched fun s hs hc => by rw [hfresh s hs] at hc; cases hc
        refine ⟨?_, hm.append hg⟩
        have hv := hf.visible
        rw [← size_rendering fun s hs => hn s (by simp [hf.row, hs])] at hv
        rw [Fragment.size_append]
        omega
      obtain ⟨later, hl, htakes⟩ := takes_insertions hafter (rendering fresh) g hes.symm
        (by simpa [hmid] using hfit)
      rw [← hrow] at hl htakes
      refine ⟨_, assemble_of_cleared hc hw (filling_of_fills rfl hslice hfill) hl, ?_⟩
      refine Takes.append (a := [_]) (takes_refill ho hfit) ?_
      simpa [leftover, hstrands, hmid] using htakes
    · have hstrands : Strands settings old new := ⟨hc, hw, by rw [hadds]; exact hfill⟩
      obtain ⟨later, hl, htakes⟩ := takes_insertions hn .empty
        (.bareBranch settings.placeholderKind ++ g) hadds (by simpa [hnew] using hplace)
      rw [Fragment.empty_append] at hl
      refine ⟨_, assemble_of_cleared hc hw (filling_of_not_fills rfl hslice hfill) hl, ?_⟩
      refine Takes.append (a := [_]) (takes_refill ho hplace) ?_
      simpa [leftover, hstrands, hnew, Fragment.append_assoc] using htakes

/-- **An assembled patch** leads from the old row to the new one, with what is left over. -/
theorem takes_assemble (settings : Settings) (ho : ∀ s ∈ old, s.Sized) (hn : ∀ s ∈ new, s.Sized)
    (same : remnant old = remnant new) (matched : (rendering old).Matched) (g : Fragment)
    (fit : (rendering old ++ g).Fit) :
    ∃ patch, assemble settings (totalWidth old) (rendering new)
        (Removal.ofSegments settings 0 old) (Addition.ofSegments none 0 new) = .ok patch ∧
      Takes patch (rendering old ++ g) (rendering new ++ leftover settings old new ++ g) := by
  have hg : g.Matched := Fragment.matched_of_append matched fit.2
  by_cases hc : Cleared old ∧ totalWidth old ≠ 0
  · have hnew : remnant new = .empty := by rw [← same, remnant_eq_empty ho hc.1]
    exact takes_assemble_cleared settings ho hn hc.1 hc.2 ((remnant_eq_empty_iff hn).mp hnew) hg
  · have hstrands : ¬ Strands settings old new := fun h => hc ⟨h.1, h.2.1⟩
    have hfit : (remnant old ++ g).Fit := by
      refine ⟨?_, ((matched_remnant_iff old).mpr matched).append hg⟩
      have hsize := fit.1
      rw [Fragment.size_append, size_rendering ho] at hsize
      rw [Fragment.size_append]
      by_cases hw : totalWidth old = 0
      · omega
      · have hne : remnant old ≠ .empty := fun he => hc ⟨(remnant_eq_empty_iff ho).mp he, hw⟩
        have := mt (Fragment.eq_empty_of_size (remnant old)) hne
        omega
    have hdel := takes_deletions settings ho .empty g rfl (by simpa using hfit)
    obtain ⟨later, hl, hins⟩ := takes_insertions hn .empty g rfl (by simpa [← same] using hfit)
    simp only [Fragment.empty_append, ← same] at hdel hl hins
    refine ⟨_, ?_, hdel.append (b := later) ?_⟩
    · rw [assemble_of_kept _ _ hc]
      exact congrArg (Except.map _) hl
    · simpa [leftover, hstrands] using hins

end Patch
end TreePatch
