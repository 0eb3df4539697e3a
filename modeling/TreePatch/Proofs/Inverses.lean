import TreePatch.Proofs.Cuts
import TreePatch.Proofs.Splices
import TreePatch.Proofs.Unmatched

/-! Steps taken back. What a step has put in ends where it began plus its own size, whatever the
texts around it were joined with, so deleting just that and putting the old slice there leads back.
The deletion never fails, and the document is the old one just if the step cut no pair
(`Document.apply_undo`). -/

namespace TreePatch

open Place

/-- Either side of a joint is as it was in the whole just if the joint cuts no pair. -/
theorem Place.mend_eq_self_iff {front back : List Place}
    (h : mend (front ++ back) = front ++ back) :
    (mend front = front ↔ ¬ Pairs front back) ∧ (mend back = back ↔ ¬ Pairs front back) := by
  have hlead {lead : Nat} (hl : Text.isLead lead = true) : half ≠ unit lead := by
    intro he
    obtain rfl := Place.unit.inj he
    exact absurd hl (by decide)
  have htrail {trail : Nat} (ht : Text.isTrail trail = true) : half ≠ unit trail := by
    intro he
    obtain rfl := Place.unit.inj he
    exact absurd ht (by decide)
  have hwhole (hp : ¬ Pairs front back) : mend front = front ∧ mend back = back := by
    rw [mend_append hp] at h
    exact List.append_inj h (length_mend front)
  refine ⟨⟨?_, fun hp => (hwhole hp).1⟩, ⟨?_, fun hp => (hwhole hp).2⟩⟩
  · rintro hfront ⟨a, lead, trail, b, rfl, rfl, hl, ht⟩
    rw [(mend_pairs (b := b) hl ht).2.1] at hfront
    exact hlead hl (List.cons.inj (List.append_inj_right' hfront rfl)).1
  · rintro hback ⟨a, lead, trail, b, rfl, rfl, hl, ht⟩
    rw [mend_trail ht] at hback
    exact htrail ht (List.cons.inj hback).1

namespace Fragment

/-- The position is between the halves of one character. -/
def Halves (f : Fragment) (position : Nat) : Prop :=
  Pairs (f.places.take position) (f.places.drop position)

variable {f : Fragment} {start stop : Nat}

theorem mend_cut (f : Fragment) (position : Nat) :
    mend (f.places.take position ++ f.places.drop position) =
      f.places.take position ++ f.places.drop position := by
  rw [List.take_append_drop, mend_places]

/-- Between halves is where the places in front read differently by themselves. -/
theorem halves_iff (f : Fragment) (position : Nat) :
    f.Halves position ↔ mend (f.places.take position) ≠ f.places.take position := by
  rw [ne_eq, (mend_eq_self_iff (f.mend_cut position)).1, Halves, Classical.not_not]

instance (f : Fragment) (position : Nat) : Decidable (f.Halves position) :=
  decidable_of_iff _ (f.halves_iff position).symm

/-- What stands between two positions. -/
def between (f : Fragment) (start stop : Nat) : Fragment :=
  .ofPlaces ((f.places.drop start).take (stop - start))

theorem drop_split (f : Fragment) (h : start ≤ stop) : f.places.drop start =
    (f.places.drop start).take (stop - start) ++ f.places.drop stop := by
  have hrest : (f.places.drop start).drop (stop - start) = f.places.drop stop := by
    rw [List.drop_drop]
    congr 1
    omega
  rw [← hrest, List.take_append_drop]

/-- Three parts put together are the whole just if neither cut halves a character. -/
theorem rejoin_iff (h : start ≤ stop) :
    .ofPlaces (f.places.take start) ++ f.between start stop ++ .ofPlaces (f.places.drop stop) = f ↔
      ¬ f.Halves start ∧ ¬ f.Halves stop := by
  have htake : Spelled (f.places.take start) := f.spelled_places.subset (List.take_subset _ _)
  have hdrop : Spelled (f.places.drop stop) := f.spelled_places.subset (List.drop_subset _ _)
  have hmid : Spelled ((f.places.drop start).take (stop - start)) :=
    f.spelled_places.subset fun p hp => List.mem_of_mem_drop (List.mem_of_mem_take hp)
  have hstart := mend_eq_self_iff (f.mend_cut start)
  have hstop := mend_eq_self_iff (f.mend_cut stop)
  have hplaces : (.ofPlaces (f.places.take start) ++ f.between start stop ++
      .ofPlaces (f.places.drop stop) : Fragment).places =
      mend (f.places.take start) ++ (mend ((f.places.drop start).take (stop - start)) ++
        mend (f.places.drop stop)) := by
    rw [places_append, places_append, between, places_ofPlaces htake, places_ofPlaces hmid,
      places_ofPlaces hdrop, List.append_assoc]
  constructor
  · intro he
    rw [he] at hplaces
    have hsplit : f.places.take start ++ ((f.places.drop start).take (stop - start) ++
        f.places.drop stop) = f.places := by
      rw [← f.drop_split h, List.take_append_drop]
    obtain ⟨hfront, hrest⟩ := List.append_inj (hsplit.trans hplaces) (length_mend _).symm
    obtain ⟨-, hback⟩ := List.append_inj hrest (length_mend _).symm
    exact ⟨hstart.1.mp hfront.symm, hstop.2.mp hback.symm⟩
  · rintro ⟨hfirst, hlast⟩
    have hrest := hstart.2.mpr hfirst
    have hback := hstop.2.mpr hlast
    rw [f.drop_split h] at hrest
    have hinside := mend_eq_self_iff hrest
    refine places_injective (hplaces.trans ?_)
    rw [hstart.1.mpr hfirst, hinside.1.mpr (hinside.2.mp hback), hback, ← f.drop_split h,
      List.take_append_drop]

end Fragment

namespace Document

/-- **A step can be taken back.** Deleting what it put in, with the old slice as the replacement,
always succeeds, and gives back the document just if the step cut no pair. -/
theorem apply_undo {d e : Document} {step : Step} (h : d.apply step = .ok e) :
    d.slice ⟨step.start, step.stop⟩ = .ok (d.content.between step.start step.stop) ∧
    ∃ back, e.apply (.delete step.start (step.start + step.filler.size)
        (some (d.content.between step.start step.stop))) = .ok back ∧
      (back = d ↔ ¬ d.content.Halves step.start ∧ ¬ d.content.Halves step.stop) := by
  obtain ⟨⟨hle, hstop⟩, -, -, hcontent⟩ := (d.apply_eq_ok_iff e step).mp h
  have hstart : step.start ≤ d.content.size := Nat.le_trans hle hstop
  have hfront : (Fragment.ofPlaces (d.content.places.take step.start)).size = step.start :=
    d.content.size_ofPlaces_take hstart
  have hundo := apply_delete_append hcontent (some (d.content.between step.start step.stop))
  rw [hfront, Option.getD_some] at hundo
  have hcut := (d.content.cutAt_eq_ok_iff _ _ step.start).mpr ⟨hstart, rfl, rfl⟩
  have hparts := Fragment.cutAt_drop hle hstop
  have hfit : (.ofPlaces (d.content.places.take step.start) ++
      d.content.between step.start step.stop ++
      .ofPlaces (d.content.places.drop step.stop) : Fragment).Fit := by
    refine ⟨?_, (Fragment.matched_cutAt_cutAt hcut hparts).mpr d.matched⟩
    have hsize := d.fit.1
    have hmid : (d.content.between step.start step.stop).size = step.stop - step.start :=
      (Fragment.cutAt_size hparts).1
    rw [Fragment.size_append, Fragment.size_append, hfront, hmid,
      d.content.size_ofPlaces_drop hstop]
    omega
  exact ⟨Fragment.slice_eq_ok hle hstop, _, hundo.trans (ofFragment_of_fit hfit),
    Document.ext_iff.trans (Fragment.rejoin_iff hle)⟩

end Document

/-- **Steps can be undone.** What an insertion has put in can be deleted again, and in place of
what a deletion has put in can come what it took out. Neither is ever refused, and the document is
then the one before, unless the step cut through the two halves of a character. -/
theorem steps_undone (d : Document) :
    (∀ position x e, d.apply (.insert position x) = .ok e →
      ∃ back, e.apply (.delete position (position + x.size) none) = .ok back ∧
        (back = d ↔ ¬ d.content.Halves position)) ∧
    ∀ start stop replacement e, d.apply (.delete start stop replacement) = .ok e →
      ∃ taken, d.slice ⟨start, stop⟩ = .ok taken ∧
        ∃ back, e.apply (.delete start (start + (replacement.getD .empty).size) (some taken)) =
            .ok back ∧
          (back = d ↔ ¬ d.content.Halves start ∧ ¬ d.content.Halves stop) := by
  constructor
  · intro position x e h
    obtain ⟨-, back, hback, hiff⟩ := Document.apply_undo h
    have hnothing : d.content.between position position = .empty := by
      rw [Fragment.between, Nat.sub_self, List.take_zero]
      rfl
    simp only [Step.start, Step.stop, Step.filler, hnothing, and_self] at hback hiff
    exact ⟨back, hback, hiff⟩
  · intro start stop replacement e h
    obtain ⟨hslice, hback⟩ := Document.apply_undo h
    exact ⟨_, hslice, hback⟩

/-- A paragraph, with a pair in its text. -/
def pairSheet : Document :=
  ⟨.ofTokens [.opening "p", .text "a🦀b", .closing "p"], by decide, by decide⟩

/-- Text joins the text on both sides and goes again, and the end of one paragraph with the start
of another comes back; an insertion between the halves of the character leaves its mark. -/
theorem steps_undone_joined :
    (∃ e, pairSheet.apply (.insert 4 mark) = .ok e ∧
      e.content = .ofTokens [.opening "p", .text "a🦀xb", .closing "p"] ∧
      e.apply (.delete 4 5 none) = .ok pairSheet) ∧
    (∃ e taken, pairSheet.apply (.delete 2 4 (some (.ofTokens [.closing "p", .opening "p"]))) =
        .ok e ∧ pairSheet.slice ⟨2, 4⟩ = .ok taken ∧
      e.apply (.delete 2 4 (some taken)) = .ok pairSheet) ∧
    ∃ e back, pairSheet.apply (.insert 3 mark) = .ok e ∧
      e.apply (.delete 3 4 none) = .ok back ∧ back ≠ pairSheet := by
  obtain ⟨hinsert, hdelete⟩ := steps_undone pairSheet
  have hok (step : Step) := (pairSheet.exists_apply_iff step).mpr
  refine ⟨?_, ?_, ?_⟩
  · obtain ⟨e, he⟩ := hok (.insert 4 mark) (by decide)
    obtain ⟨back, hback, hiff⟩ := hinsert 4 mark e he
    obtain rfl := hiff.mpr (by decide)
    have hcontent := ((Document.apply_eq_ok_iff _ e _).mp he).2.2.2
    exact ⟨e, he, hcontent.trans (by decide), hback⟩
  · obtain ⟨e, he⟩ := hok (.delete 2 4 (some (.ofTokens [.closing "p", .opening "p"]))) (by decide)
    obtain ⟨taken, htaken, back, hback, hiff⟩ := hdelete 2 4 _ e he
    obtain rfl := hiff.mpr (by decide)
    exact ⟨e, taken, he, htaken, hback⟩
  · obtain ⟨e, he⟩ := hok (.insert 3 mark) (by decide)
    obtain ⟨back, hback, hiff⟩ := hinsert 3 mark e he
    exact ⟨e, back, he, hback, fun h => absurd (hiff.mp h) (by decide)⟩

end TreePatch
