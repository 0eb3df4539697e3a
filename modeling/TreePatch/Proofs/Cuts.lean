import TreePatch.Proofs.Places

/-! Cuts and slices by positions. The places on either side of a cut are those of the whole, but
for a pair that the cut goes through: each side then has the replacement character for its half.
Places that were cut anywhere are mended by looking at neighbours only, so cutting again commutes
with mending (`Place.mend_take`, `Place.mend_drop`) and slices compose (`cuts_by_places`). -/

namespace TreePatch

namespace Text

theorem toNat_ofNat {n : Nat} (h : n.isValidChar) : (Char.ofNat n).toNat = n := by
  rw [Char.ofNat, dif_pos h]
  rfl

/-- A lead and a trail are the units of the character they make up. -/
theorem codes_charOfPair {lead trail : Nat} (hl : isLead lead = true) (ht : isTrail trail = true) :
    codes (charOfPair lead trail) = [lead, trail] := by
  simp only [isLead, isTrail, Bool.and_eq_true, decide_eq_true_eq] at hl ht
  have hnat : (charOfPair lead trail).toNat =
      0x10000 + (lead - 0xD800) * 0x400 + (trail - 0xDC00) :=
    toNat_ofNat (Or.inr ⟨by omega, by omega⟩)
  have hlead : 0xD800 + ((charOfPair lead trail).toNat - 0x10000) / 0x400 = lead := by omega
  have htrail : 0xDC00 + ((charOfPair lead trail).toNat - 0x10000) % 0x400 = trail := by omega
  rw [codes, if_neg (by omega), hlead, htrail]

/-- The unit that stands for one read by itself. -/
def aloneCode (code : Nat) : Nat := if isLead code || isTrail code then 0xFFFD else code

theorem codes_charOf {code : Nat} (h : code < 0x10000) :
    codes (charOf code) = [aloneCode code] := by
  unfold charOf aloneCode
  split
  · rfl
  · rename_i hs
    simp only [isLead, isTrail, Bool.or_eq_true, Bool.and_eq_true, decide_eq_true_eq] at hs
    have hnat : (Char.ofNat code).toNat = code := by
      refine toNat_ofNat ?_
      unfold Nat.isValidChar
      omega
    rw [codes, hnat, if_pos h]

theorem aloneCode_aloneCode (code : Nat) : aloneCode (aloneCode code) = aloneCode code := by
  unfold aloneCode
  split
  · rfl
  · rfl

/-- A unit by itself is no half of a pair any more. -/
theorem not_half_aloneCode (code : Nat) :
    isLead (aloneCode code) = false ∧ isTrail (aloneCode code) = false := by
  unfold aloneCode
  split
  · decide
  · rename_i hs
    simpa using hs

theorem codes_lt {c : Char} {code : Nat} (h : code ∈ codes c) : code < 0x10000 := by
  have hvalid := toNat_valid c
  unfold codes at h
  split at h
  · rw [List.mem_singleton] at h
    omega
  · simp only [List.mem_cons, List.not_mem_nil, or_false] at h
    omega

end Text

namespace Place

open Text

/-- The place that stands for either half of a pair that was cut. -/
def half : Place := unit 0xFFFD

/-- Places as they read: what is no part of a pair becomes the replacement character. -/
def mend : List Place → List Place
  | [] => []
  | opening kind :: ps => opening kind :: mend ps
  | closing kind :: ps => closing kind :: mend ps
  | unit lead :: unit trail :: ps =>
    if isLead lead && isTrail trail then unit lead :: unit trail :: mend ps
    else unit (aloneCode lead) :: mend (unit trail :: ps)
  | unit code :: ps => unit (aloneCode code) :: mend ps

/-- The two places that meet are the halves of one character. -/
def Pairs (front back : List Place) : Prop :=
  ∃ a lead trail b, front = a ++ [unit lead] ∧ back = unit trail :: b ∧
    isLead lead = true ∧ isTrail trail = true

@[simp] theorem length_mend (ps : List Place) : (mend ps).length = ps.length := by
  fun_induction mend ps with
  | case1 => rfl
  | case2 kind ps ih => simp [ih]
  | case3 kind ps ih => simp [ih]
  | case4 lead trail ps _ ih => simp [ih]
  | case5 lead trail ps _ ih => simp [ih]
  | case6 code ps _ ih => simp [ih]

theorem mend_unit {code : Nat} (h : isLead code = false) (ps : List Place) :
    mend (unit code :: ps) = unit (aloneCode code) :: mend ps := by
  cases ps with
  | nil => rfl
  | cons p ps => cases p <;> simp [mend, h]

theorem mend_pair {lead trail : Nat} (hl : isLead lead = true) (ht : isTrail trail = true)
    (ps : List Place) :
    mend (unit lead :: unit trail :: ps) = unit lead :: unit trail :: mend ps := by
  simp [mend, hl, ht]

theorem Pairs.cons {front back : List Place} (h : Pairs front back) (p : Place) :
    Pairs (p :: front) back := by
  obtain ⟨a, lead, trail, b, rfl, rfl, hl, ht⟩ := h
  exact ⟨p :: a, lead, trail, b, rfl, rfl, hl, ht⟩

/-- Where no pair is cut, both sides are mended apart. -/
theorem mend_append {front back : List Place} (h : ¬ Pairs front back) :
    mend (front ++ back) = mend front ++ mend back := by
  fun_induction mend front with
  | case1 => rfl
  | case2 kind ps ih => simp [mend, ih fun hp => h (hp.cons _)]
  | case3 kind ps ih => simp [mend, ih fun hp => h (hp.cons _)]
  | case4 lead trail ps hpair ih =>
    simp [mend, hpair, ih fun hp => h ((hp.cons _).cons _)]
  | case5 lead trail ps hpair ih =>
    have hrest := ih fun hp => h (hp.cons _)
    simp only [List.cons_append] at hrest
    simp [mend, hpair, hrest]
  | case6 code ps hnone ih =>
    have hrest := ih fun hp => h (hp.cons _)
    cases ps with
    | cons p ps =>
      cases p with
      | unit trail => exact absurd rfl (hnone trail ps)
      | opening kind => simpa [mend] using hrest
      | closing kind => simpa [mend] using hrest
    | nil =>
      cases back with
      | nil => rfl
      | cons p back =>
        cases p with
        | opening kind => rfl
        | closing kind => rfl
        | unit trail =>
          have hpair : ¬ (isLead code && isTrail trail) = true := by
            intro hc
            rw [Bool.and_eq_true] at hc
            exact h ⟨[], code, trail, back, rfl, rfl, hc⟩
          simp [mend, hpair]

/-- No pair is cut in front of a lead. -/
theorem not_pairs_of_lead {front : List Place} {lead : Nat} (hl : isLead lead = true)
    (back : List Place) : ¬ Pairs front (unit lead :: back) := by
  rintro ⟨_, _, trail, _, _, hb, _, ht⟩
  obtain rfl := Place.unit.inj (List.cons.inj hb).1
  rw [isLead_of_isTrail ht] at hl
  cases hl

theorem mend_lead {lead : Nat} (hl : isLead lead = true) : mend [unit lead] = [half] := by
  simp [mend, aloneCode, hl, half]

theorem mend_trail {trail : Nat} (ht : isTrail trail = true) (back : List Place) :
    mend (unit trail :: back) = half :: mend back := by
  rw [mend_unit (isLead_of_isTrail ht)]
  simp [aloneCode, ht, half]

/-- The halves of a cut pair are mended apart from what is around them. -/
theorem mend_pairs {a b : List Place} {lead trail : Nat} (hl : isLead lead = true)
    (ht : isTrail trail = true) :
    mend (a ++ [unit lead] ++ unit trail :: b) = mend a ++ unit lead :: unit trail :: mend b ∧
      mend (a ++ [unit lead]) = mend a ++ [half] ∧
      mend (unit trail :: b) = half :: mend b := by
  refine ⟨?_, ?_, mend_trail ht b⟩
  · rw [List.append_assoc, List.singleton_append, mend_append (not_pairs_of_lead hl _),
      mend_pair hl ht]
  · rw [mend_append (not_pairs_of_lead hl _), mend_lead hl]

theorem mend_mend (ps : List Place) : mend (mend ps) = mend ps := by
  fun_induction mend ps with
  | case1 => rfl
  | case2 kind ps ih => simp [mend, ih]
  | case3 kind ps ih => simp [mend, ih]
  | case4 lead trail ps hpair ih =>
    rw [Bool.and_eq_true] at hpair
    rw [mend_pair hpair.1 hpair.2, ih]
  | case5 lead trail ps hpair ih =>
    rw [mend_unit (not_half_aloneCode lead).1, aloneCode_aloneCode, ih]
  | case6 code ps hnone ih =>
    rw [mend_unit (not_half_aloneCode code).1, aloneCode_aloneCode, ih]

/-- Either side of a cut reads the same whether or not the whole was mended before. -/
theorem mend_sides (front back : List Place) :
    mend ((mend (front ++ back)).take front.length) = mend front ∧
      mend ((mend (front ++ back)).drop front.length) = mend back := by
  by_cases h : Pairs front back
  · obtain ⟨a, lead, trail, b, rfl, rfl, hl, ht⟩ := h
    obtain ⟨hwhole, hfront, hback⟩ := mend_pairs (a := a) (b := b) hl ht
    have hrow : mend (a ++ [unit lead] ++ unit trail :: b) =
        (mend a ++ [unit lead]) ++ unit trail :: mend b := by
      rw [hwhole, List.append_assoc, List.singleton_append]
    have hlen : (mend a ++ [unit lead]).length = (a ++ [unit lead]).length := by simp
    obtain ⟨-, hfront', hback'⟩ := mend_pairs (a := mend a) (b := mend b) hl ht
    rw [hrow, List.take_left' hlen, List.drop_left' hlen, hfront', hback', hfront, hback,
      mend_mend, mend_mend]
    exact ⟨rfl, rfl⟩
  · have hlen : (mend front).length = front.length := length_mend front
    rw [mend_append h, List.take_left' hlen, List.drop_left' hlen, mend_mend, mend_mend]
    exact ⟨rfl, rfl⟩

theorem mend_take (n : Nat) (ps : List Place) : mend ((mend ps).take n) = mend (ps.take n) := by
  rcases Nat.le_total n ps.length with h | h
  · have hsides := (mend_sides (ps.take n) (ps.drop n)).1
    rwa [List.take_append_drop, List.length_take_of_le h] at hsides
  · rw [List.take_of_length_le h, List.take_of_length_le (by rwa [length_mend]), mend_mend]

theorem mend_drop (n : Nat) (ps : List Place) : mend ((mend ps).drop n) = mend (ps.drop n) := by
  rcases Nat.le_total n ps.length with h | h
  · have hsides := (mend_sides (ps.take n) (ps.drop n)).2
    rwa [List.take_append_drop, List.length_take_of_le h] at hsides
  · rw [List.drop_of_length_le h, List.drop_of_length_le (by rwa [length_mend])]

theorem mend_slice (n k : Nat) (ps : List Place) :
    mend (((mend ps).drop n).take k) = mend ((ps.drop n).take k) := by
  rw [← mend_take, mend_drop, mend_take]

/-- The places of a text and boundaries, or of a part of them. -/
def Spelled (ps : List Place) : Prop := ∀ code, unit code ∈ ps → code < 0x10000

theorem Spelled.subset {ps qs : List Place} (h : Spelled qs) (hs : ps ⊆ qs) : Spelled ps :=
  fun code hc => h code (hs hc)

end Place

theorem Token.places_singleton (c : Char) :
    (Token.text (String.singleton c)).places = (Text.codes c).map .unit := by
  simp [places, Text.places]

/-- What places read as has these places mended. -/
theorem Token.placesAmong_read {ps : List Place} (h : Place.Spelled ps) :
    placesAmong (Place.read ps) = Place.mend ps := by
  fun_induction Place.read ps with
  | case1 => rfl
  | case2 kind ps ih =>
    rw [placesAmong_cons, ih (h.subset (List.subset_cons_self _ _))]
    rfl
  | case3 kind ps ih =>
    rw [placesAmong_cons, ih (h.subset (List.subset_cons_self _ _))]
    rfl
  | case4 lead trail ps hpair ih =>
    rw [Bool.and_eq_true] at hpair
    rw [places_joinFront, places_singleton, Text.codes_charOfPair hpair.1 hpair.2,
      Place.mend_pair hpair.1 hpair.2, ih fun code hc => h code (by simp [hc])]
    rfl
  | case5 lead trail ps hpair ih =>
    rw [places_joinFront, places_singleton, Text.codes_charOf (h lead List.mem_cons_self),
      ih (h.subset (List.subset_cons_self _ _))]
    simp [Place.mend, hpair]
  | case6 code ps hnone ih =>
    rw [places_joinFront, places_singleton, Text.codes_charOf (h code List.mem_cons_self),
      ih (h.subset (List.subset_cons_self _ _))]
    cases ps with
    | nil => rfl
    | cons p ps =>
      cases p with
      | unit trail => exact absurd rfl (hnone trail ps)
      | opening kind => rfl
      | closing kind => rfl

open Place

namespace Fragment

theorem spelled_places (f : Fragment) : Spelled f.places := by
  intro code hc
  obtain ⟨t, -, hc⟩ := List.mem_flatMap.mp hc
  cases t with
  | opening kind => simp [Token.places] at hc
  | closing kind => simp [Token.places] at hc
  | text s =>
    simp only [Token.places, Text.places, List.mem_map, List.mem_flatMap, Place.unit.injEq] at hc
    obtain ⟨_, ⟨c, -, hcode⟩, rfl⟩ := hc
    exact Text.codes_lt hcode

theorem places_ofPlaces {ps : List Place} (h : Spelled ps) : (ofPlaces ps).places = mend ps :=
  Token.placesAmong_read h

/-- No half of a pair stands alone in a fragment. -/
theorem mend_places (f : Fragment) : mend f.places = f.places := by
  rw [← places_ofPlaces f.spelled_places, ofPlaces_places]

theorem places_injective {f g : Fragment} (h : f.places = g.places) : f = g := by
  rw [← ofPlaces_places f, h, ofPlaces_places]

/-- A cut told by the places on either side. -/
theorem cutAt_eq_ok_iff_places (f before after : Fragment) (position : Nat) :
    f.cutAt position = .ok (before, after) ↔ position ≤ f.size ∧
      before.places = mend (f.places.take position) ∧
      after.places = mend (f.places.drop position) := by
  have htake : Spelled (f.places.take position) := f.spelled_places.subset (List.take_subset _ _)
  have hdrop : Spelled (f.places.drop position) := f.spelled_places.subset (List.drop_subset _ _)
  rw [cutAt_eq_ok_iff, ← places_ofPlaces htake, ← places_ofPlaces hdrop]
  constructor
  · rintro ⟨hle, rfl, rfl⟩
    exact ⟨hle, rfl, rfl⟩
  · rintro ⟨hle, hbefore, hafter⟩
    exact ⟨hle, places_injective hbefore, places_injective hafter⟩

theorem exists_cutAt_iff (f : Fragment) (position : Nat) :
    (∃ parts, f.cutAt position = .ok parts) ↔ position ≤ f.size := by
  constructor
  · rintro ⟨⟨before, after⟩, h⟩
    exact ((f.cutAt_eq_ok_iff before after position).mp h).1
  · intro h
    exact ⟨_, (f.cutAt_eq_ok_iff _ _ position).mpr ⟨h, rfl, rfl⟩⟩

/-- A cut behind another one, also behind one through a pair. -/
theorem cutAt_drop {f : Fragment} {start stop : Nat} (hle : start ≤ stop) (hstop : stop ≤ f.size) :
    (ofPlaces (f.places.drop start)).cutAt (stop - start) =
      .ok (ofPlaces ((f.places.drop start).take (stop - start)),
        ofPlaces (f.places.drop stop)) := by
  have hdrop : Spelled (f.places.drop start) := f.spelled_places.subset (List.drop_subset _ _)
  have hsize : stop - start ≤ (ofPlaces (f.places.drop start)).size := by
    rw [f.size_ofPlaces_drop (Nat.le_trans hle hstop)]
    omega
  have hsum : start + (stop - start) = stop := by omega
  refine (cutAt_eq_ok_iff_places _ _ _ _).mpr ⟨hsize, ?_, ?_⟩
  · rw [places_ofPlaces hdrop, mend_take, places_ofPlaces (hdrop.subset (List.take_subset _ _))]
  · rw [places_ofPlaces hdrop, mend_drop, List.drop_drop, hsum,
      places_ofPlaces (f.spelled_places.subset (List.drop_subset _ _))]

theorem slice_eq_ok {f : Fragment} {start stop : Nat} (hle : start ≤ stop) (hstop : stop ≤ f.size) :
    f.slice ⟨start, stop⟩ = .ok (ofPlaces ((f.places.drop start).take (stop - start))) := by
  have hfront := (f.cutAt_eq_ok_iff _ _ start).mpr ⟨Nat.le_trans hle hstop, rfl, rfl⟩
  have hlt : ¬ stop < start := Nat.not_lt_of_le hle
  simp only [slice, Extent.length, hlt, ↓reduceIte, hfront, cutAt_drop hle hstop, bind,
    Except.bind, pure, Except.pure]

theorem bounds_of_slice {f x : Fragment} {start stop : Nat} (h : f.slice ⟨start, stop⟩ = .ok x) :
    start ≤ stop ∧ stop ≤ f.size := by
  simp only [slice, Extent.length, bind, Except.bind] at h
  split at h
  · cases h
  · rename_i hle
    cases hfront : f.cutAt start with
    | error reason => simp [hfront] at h
    | ok front =>
      cases hback : front.2.cutAt (stop - start) with
      | error reason => simp [hfront, hback] at h
      | ok back =>
        have hrest := (cutAt_size hfront).2
        have hinside := ((cutAt_eq_ok_iff _ _ _ _).mp hback).1
        have hstart := ((cutAt_eq_ok_iff _ _ _ _).mp hfront).1
        omega

/-- A slice has the places inside its extent, mended. -/
theorem slice_eq_ok_iff (f x : Fragment) (start stop : Nat) :
    f.slice ⟨start, stop⟩ = .ok x ↔ start ≤ stop ∧ stop ≤ f.size ∧
      x.places = mend ((f.places.drop start).take (stop - start)) := by
  have hspelled : Spelled ((f.places.drop start).take (stop - start)) :=
    f.spelled_places.subset fun p hp => List.mem_of_mem_drop (List.mem_of_mem_take hp)
  constructor
  · intro h
    obtain ⟨hle, hstop⟩ := bounds_of_slice h
    obtain rfl := Except.ok.inj (h.symm.trans (slice_eq_ok hle hstop))
    exact ⟨hle, hstop, places_ofPlaces hspelled⟩
  · rintro ⟨hle, hstop, hx⟩
    rw [slice_eq_ok hle hstop, Except.ok.injEq]
    exact places_injective ((places_ofPlaces hspelled).trans hx.symm)

/-- A slice of a slice is a slice of the whole, also where the first one cut a pair. -/
theorem slice_slice {f x : Fragment} {a b c d : Nat} (h : f.slice ⟨a, b⟩ = .ok x) (hcd : c ≤ d)
    (hd : d ≤ b - a) : x.slice ⟨c, d⟩ = f.slice ⟨a + c, a + d⟩ := by
  obtain ⟨hab, hb, hx⟩ := (slice_eq_ok_iff _ _ _ _).mp h
  have hlen : ((f.places.drop a).take (b - a)).length = b - a := by
    rw [List.length_take, List.length_drop, length_places]
    omega
  have hsize : x.size = b - a := by rw [← length_places, hx, length_mend, hlen]
  have hrow : ((f.places.drop (a + c)).take (a + d - (a + c))) =
      (((f.places.drop a).take (b - a)).drop c).take (d - c) := by
    rw [List.drop_take, List.take_take, List.drop_drop, Nat.add_sub_add_left,
      Nat.min_eq_left (by omega)]
  obtain ⟨y, hy⟩ : ∃ y, x.slice ⟨c, d⟩ = .ok y := ⟨_, slice_eq_ok hcd (hsize ▸ hd)⟩
  rw [hy, eq_comm, slice_eq_ok_iff]
  refine ⟨by omega, by omega, ?_⟩
  rw [((slice_eq_ok_iff _ _ _ _).mp hy).2.2, hx, hrow]
  exact mend_slice _ _ _

end Fragment

namespace Fragment

variable {f before after : Fragment} {position : Nat}

/-- A cut that leaves every pair whole leaves every place as it is. -/
theorem places_of_cutAt (h : f.cutAt position = .ok (before, after))
    (whole : ¬ Pairs (f.places.take position) (f.places.drop position)) :
    before.places = f.places.take position ∧ after.places = f.places.drop position ∧
      before ++ after = f := by
  obtain ⟨-, hbefore, hafter⟩ := (cutAt_eq_ok_iff_places _ _ _ _).mp h
  have hsides : mend (f.places.take position) ++ mend (f.places.drop position) =
      f.places.take position ++ f.places.drop position := by
    rw [← mend_append whole, List.take_append_drop, mend_places]
  obtain ⟨htake, hdrop⟩ := List.append_inj hsides (length_mend _)
  rw [htake] at hbefore
  rw [hdrop] at hafter
  refine ⟨hbefore, hafter, places_injective ?_⟩
  rw [places_append, hbefore, hafter, List.take_append_drop]

/-- A cut through a pair replaces both halves and leaves every other place as it is. -/
theorem places_of_cutAt_pair (h : f.cutAt position = .ok (before, after)) {a b : List Place}
    {lead trail : Nat} (hfront : f.places.take position = a ++ [unit lead])
    (hback : f.places.drop position = unit trail :: b) (hl : Text.isLead lead = true)
    (ht : Text.isTrail trail = true) : before.places = a ++ [half] ∧ after.places = half :: b := by
  obtain ⟨-, hbefore, hafter⟩ := (cutAt_eq_ok_iff_places _ _ _ _).mp h
  obtain ⟨hwhole, hleft, hright⟩ := mend_pairs (a := a) (b := b) hl ht
  rw [← hfront, ← hback, List.take_append_drop, mend_places] at hwhole
  have hrow : a ++ unit lead :: unit trail :: b =
      mend a ++ unit lead :: unit trail :: mend b := by
    rw [← hwhole, ← List.take_append_drop position f.places, hfront, hback]
    simp
  obtain ⟨ha, hrest⟩ := List.append_inj hrow (length_mend a).symm
  have hb : b = mend b := (List.cons.inj (List.cons.inj hrest).2).2
  rw [hbefore, hafter, hfront, hback, hleft, hright, ← ha, ← hb]
  exact ⟨rfl, rfl⟩

end Fragment

/-- **Cuts act on positions.** A fragment can be cut at each of its positions and nowhere else, and
the parts are as wide as they should be, in normal form, and have the places of the whole on either
side. Put together they are the whole again. Only where the cut goes through a pair do they have
the replacement character for its halves. A slice can be taken just inside the fragment, and a
slice of a slice is a slice of the whole. -/
theorem cuts_by_places (f : Fragment) :
    (∀ position, (∃ parts, f.cutAt position = .ok parts) ↔ position ≤ f.size) ∧
    (∀ position before after, f.cutAt position = .ok (before, after) →
      before.size = position ∧ after.size = f.size - position ∧
      Normal before.tokens ∧ Normal after.tokens ∧
      (¬ Pairs (f.places.take position) (f.places.drop position) →
        before.places = f.places.take position ∧ after.places = f.places.drop position ∧
          before ++ after = f) ∧
      ∀ a lead trail b, f.places.take position = a ++ [.unit lead] →
        f.places.drop position = .unit trail :: b →
        Text.isLead lead = true → Text.isTrail trail = true →
        before.places = a ++ [half] ∧ after.places = half :: b) ∧
    (∀ start stop, (∃ x, f.slice ⟨start, stop⟩ = .ok x) ↔ start ≤ stop ∧ stop ≤ f.size) ∧
    ∀ a b x, f.slice ⟨a, b⟩ = .ok x → ∀ c d, c ≤ d → d ≤ b - a →
      x.slice ⟨c, d⟩ = f.slice ⟨a + c, a + d⟩ ∧ ∃ y, x.slice ⟨c, d⟩ = .ok y := by
  refine ⟨f.exists_cutAt_iff, ?_, ?_, ?_⟩
  · intro position before after h
    obtain ⟨hbefore, hafter⟩ := Fragment.cutAt_size h
    refine ⟨hbefore, hafter, before.normal, after.normal, Fragment.places_of_cutAt h, ?_⟩
    intro a lead trail b hfront hback hl ht
    exact Fragment.places_of_cutAt_pair h hfront hback hl ht
  · intro start stop
    constructor
    · rintro ⟨x, hx⟩
      exact Fragment.bounds_of_slice hx
    · rintro ⟨hle, hstop⟩
      exact ⟨_, Fragment.slice_eq_ok hle hstop⟩
  · intro a b x hx c d hcd hd
    have hslice := Fragment.slice_slice hx hcd hd
    obtain ⟨hab, hb⟩ := Fragment.bounds_of_slice hx
    have hstop : a + d ≤ f.size := by omega
    exact ⟨hslice, _, hslice.trans (Fragment.slice_eq_ok (Nat.add_le_add_left hcd a) hstop)⟩

/-- A paragraph whose text has a pair in its middle. -/
def pairInText : Fragment := .ofTokens [.opening "p", .text "a🦀b", .closing "p"]

/-- One cut goes through the pair and one does not; a slice of a slice begins inside the pair. -/
theorem cuts_by_places_pair :
    (∃ before after, pairInText.cutAt 3 = .ok (before, after) ∧ before.size = 3 ∧ after.size = 3 ∧
      before.places = [.opening "p", .unit 0x61, half] ∧
      after.places = [half, .unit 0x62, .closing "p"]) ∧
    (∃ before after, pairInText.cutAt 4 = .ok (before, after) ∧ before ++ after = pairInText) ∧
    ∃ x, pairInText.slice ⟨1, 4⟩ = .ok x ∧ x.slice ⟨2, 3⟩ = pairInText.slice ⟨3, 4⟩ ∧
      pairInText.slice ⟨3, 4⟩ = .ok (.ofTokens [.text "\uFFFD"]) := by
  obtain ⟨hcut, hparts, hslice, hagain⟩ := cuts_by_places pairInText
  refine ⟨?_, ?_, ?_⟩
  · obtain ⟨⟨before, after⟩, h⟩ := (hcut 3).mpr (by decide)
    obtain ⟨hbefore, hafter, -, -, -, hpair⟩ := hparts 3 before after h
    obtain ⟨hfront, hback⟩ := hpair [.opening "p", .unit 0x61] 0xD83E 0xDD80
      [.unit 0x62, .closing "p"] (by decide) (by decide) (by decide) (by decide)
    exact ⟨before, after, h, hbefore, hafter.trans (by decide), hfront, hback⟩
  · obtain ⟨⟨before, after⟩, h⟩ := (hcut 4).mpr (by decide)
    refine ⟨before, after, h, ((hparts 4 before after h).2.2.2.2.1 ?_).2.2⟩
    rintro ⟨a, lead, trail, b, -, hback, -, ht⟩
    have hunit : pairInText.places.drop 4 = .unit 0x62 :: [.closing "p"] := by decide
    rw [hunit] at hback
    obtain rfl := Place.unit.inj (List.cons.inj hback).1
    exact absurd ht (by decide)
  · obtain ⟨x, hx⟩ := (hslice 1 4).mpr (by decide)
    exact ⟨x, hx, (hagain 1 4 x hx 2 3 (by decide) (by decide)).1, rfl⟩

end TreePatch
