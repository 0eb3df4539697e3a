import TreePatch.Proofs.Siblings

/-! Which positions of a tree are in changed segments. A position is in one exactly if a node
stands there in which nothing is kept, and on the way to which nothing is kept
(`changedAt_surveyAmong_iff`). What is removed or added covers just these positions, and each
removal and each addition is a stretch of the row. -/

namespace TreePatch

open Segment Node

namespace Segment

variable {position x : Nat} {s : Segment} {ss : List Segment}

theorem changedAt_cons_iff : ChangedAt position (s :: ss) x ↔
    (∃ n, s = .changed n ∧ position ≤ x ∧ x < position + n.span) ∨
      ChangedAt (position + s.width) ss x := by
  constructor
  · rintro ⟨y, n, rfl, hy⟩
    rw [segmentAt] at hy
    split at hy
    · rename_i hlt
      obtain rfl := Option.some.inj hy
      exact Or.inl ⟨n, rfl, Nat.le_add_right _ _, Nat.add_lt_add_left hlt _⟩
    · exact Or.inr ⟨y - s.width, n, by omega, hy⟩
  · rintro (⟨n, rfl, hle, hlt⟩ | h)
    · exact changedAt_head ss hle hlt
    · exact h.cons

theorem changedAt_iff_split : ChangedAt position ss x ↔
    ∃ before n after, ss = before ++ .changed n :: after ∧ position + totalWidth before ≤ x ∧
      x < position + totalWidth before + n.span := by
  constructor
  · intro h
    induction ss generalizing position with
    | nil =>
      obtain ⟨y, n, -, hy⟩ := h
      cases hy
    | cons s ss ih =>
      rcases changedAt_cons_iff.mp h with ⟨n, rfl, hle, hlt⟩ | h
      · exact ⟨[], n, ss, rfl, hle, hlt⟩
      · obtain ⟨before, n, after, rfl, hle, hlt⟩ := ih h
        rw [Nat.add_assoc position, ← totalWidth_cons] at hle hlt
        exact ⟨s :: before, n, after, rfl, hle, hlt⟩
  · rintro ⟨before, n, after, rfl, hle, hlt⟩
    obtain ⟨y, rfl⟩ := Nat.exists_eq_add_of_le hle
    refine ⟨totalWidth before + y, n, Nat.add_assoc _ _ _, ?_⟩
    rw [segmentAt_behind]
    exact segmentAt_cons_of_lt (Nat.add_lt_add_iff_left.mp hlt)

end Segment

/-! ## Positions that change -/

/-- **The positions that change** are those of nodes in which nothing is kept, reached through
nodes that are not kept. -/
theorem changedAt_surveyAmong_iff {s : Sieve} {position x : Nat} {ns : List Node}
    (sp : s.Spares ns) (hs : AllSized ns) :
    ChangedAt position (surveyAmong s ns) x ↔
      ∃ path n start, followAmong position ns path = some (n, start) ∧
        (∀ m ∈ onPathAmong ns path, s.keeps m = false) ∧ n.Bare s ∧
        start ≤ x ∧ x < start + n.span := by
  constructor
  · intro h
    obtain ⟨before, n, after, hsplit, hle, hlt⟩ := changedAt_iff_split.mp h
    obtain ⟨path, front, m, back, hsegment, hseat⟩ :=
      exists_seat position ns sp hs hsplit rfl
    obtain ⟨base, hrow, hbase⟩ := hseat.row
    -- a changed segment is that of a node with nothing kept in it
    have hbare : m.Bare s ∧ m = n := by
      rcases hseat.whole with hk | hb
      · rw [Sieve.segment_of_keeps hk] at hsegment
        cases hsegment
      · rw [Sieve.segment_of_bare hb] at hsegment
        cases hsegment
        exact ⟨hb, rfl⟩
    obtain ⟨hbare, rfl⟩ := hbare
    have hm : (front ++ m :: back)[front.length]? = some m := by simp
    obtain ⟨hfollow, hpath⟩ := followAmong_snoc hrow hm
    rw [List.take_left, hbase] at hfollow
    refine ⟨path ++ [front.length], m, _, hfollow, ?_, hbare, hle, hlt⟩
    rw [hpath]
    intro k hk
    rcases List.mem_append.mp hk with hk | hk
    · exact hseat.clear k hk
    · obtain rfl := List.mem_singleton.mp hk
      exact hbare k (mem_nodes_self k)
  · rintro ⟨path, n, start, hfollow, hclear, hbare, hle, hlt⟩
    induction path generalizing ns position with
    | nil => cases hfollow
    | cons i path ih =>
      obtain ⟨c, hc, hbelow⟩ := followAmong_cons_eq_some_iff.mp hfollow
      have hmem := List.mem_of_getElem? hc
      obtain ⟨hsized, hchildren⟩ := hs.child hmem
      rw [onPathAmong_cons hc, onPath_eq, List.forall_mem_cons] at hclear
      obtain ⟨hself, hclear⟩ := hclear
      suffices hin : ChangedAt (position + spanAmong (ns.take i)) (survey s c) x by
        obtain ⟨y, m, rfl, hy⟩ := hin
        exact ⟨spanAmong (ns.take i) + y, m, Nat.add_assoc _ _ _, segmentAt_surveyAmong hs hc hy⟩
      have hspares := sp.of_mem hmem
      rcases survey_fate hspares with ⟨hk, -⟩ | ⟨-, hrow⟩ | ⟨kind, -, -, ⟨m, hm, hkept⟩, hrow⟩
      · rw [hself] at hk
        cases hk
      · obtain ⟨hfirst, hlast, -⟩ := within_of_follow hsized hchildren hbelow
        rw [hrow]
        exact changedAt_head [] (by omega) (by omega)
      · cases path with
        | nil =>
          obtain ⟨rfl, -⟩ := Prod.mk.inj (Option.some.inj hbelow)
          have := hbare m (mem_nodes_of_below hm)
          rw [hkept] at this
          cases this
        | cons j path =>
          obtain ⟨y, m, rfl, hy⟩ := ih hspares.below hchildren hbelow hclear
          rw [hrow]
          exact ChangedAt.cons ⟨y, m, rfl, segmentAt_front _ hy⟩

/-- The same told of the nodes that own the positions. -/
theorem changedAt_iff_owner {s : Sieve} {position x : Nat} {ns : List Node}
    (sp : s.Spares ns) (hs : AllSized ns) :
    ChangedAt position (surveyAmong s ns) x ↔
      ∃ path n start, followAmong position ns path = some (n, start) ∧ n.OwnsAt start x ∧
        (∀ m ∈ onPathAmong ns path, s.keeps m = false) ∧
        ∀ m ∈ nodesAmong n.children, s.keeps m = false := by
  rw [changedAt_surveyAmong_iff sp hs]
  constructor
  · rintro ⟨path, n, start, hfollow, hclear, hbare, hle, hlt⟩
    obtain ⟨hn, hchildren⟩ := sized_of_followAmong hs hfollow
    obtain ⟨rest, m, start', hrest, howns⟩ := exists_owner start x n hn hchildren hle hlt
    refine ⟨path ++ rest, m, start', ?_, howns, fun k hk => ?_, fun k hk => ?_⟩
    · rw [followAmong_append _ _ (ne_nil_of_followAmong hfollow), hfollow]
      exact hrest
    · rcases mem_onPathAmong_append hfollow hk with hk | hk
      · exact hclear k hk
      · exact hbare k hk
    · exact hbare k (mem_nodes_trans n (mem_nodes_of_follow hrest) (mem_nodes_of_below hk))
  · rintro ⟨path, n, start, hfollow, howns, hclear, hbelow⟩
    obtain ⟨hn, hchildren⟩ := sized_of_followAmong hs hfollow
    refine ⟨path, n, start, hfollow, hclear, fun m hm => ?_, howns.within hn hchildren⟩
    rcases mem_nodes_iff.mp hm with rfl | hm
    · exact hclear m (mem_onPathAmong_of_followAmong hfollow)
    · exact hbelow m hm

/-! ## What is removed and added -/

/-- A part of a row that starts at a position takes up the extent. -/
structure Stretch (position : Nat) (segments : List Segment) (e : Extent)
    (before middle after : List Segment) : Prop where
  row : segments = before ++ middle ++ after
  extent : e = ⟨position + totalWidth before, position + totalWidth before + totalWidth middle⟩
  visible : totalWidth middle ≠ 0

theorem Stretch.cons {position : Nat} {s : Segment} {ss before middle after : List Segment}
    {e : Extent} (h : Stretch (position + s.width) ss e before middle after) :
    Stretch position (s :: ss) e (s :: before) middle after where
  row := by rw [h.row, List.cons_append, List.cons_append]
  extent := by rw [h.extent, totalWidth_cons, ← Nat.add_assoc]
  visible := h.visible

namespace Removal

variable {settings : Settings} {position x : Nat} {segments : List Segment} {r : Removal}
  {rs : List Removal}

theorem covers_joinFront_of {stop : Nat} (h : Extent.Spaced 1 r.extent.stop stop (rs.map extent))
    (width : r.extent.start < r.extent.stop)
    (hx : r.extent.Covers x ∨ ∃ later ∈ rs, later.extent.Covers x) :
    ∃ joined ∈ joinFront r rs, joined.extent.Covers x := by
  cases rs with
  | nil =>
    rcases hx with hx | ⟨later, hl, -⟩
    · exact ⟨r, List.mem_singleton_self r, hx⟩
    · cases hl
  | cons next rest =>
    obtain ⟨-, hnext, -⟩ := h.inside next.extent List.mem_cons_self
    simp only [joinFront]
    split
    · rename_i htouch
      rcases hx with ⟨hstart, hstop⟩ | ⟨later, hl, hstart, hstop⟩
      · exact ⟨_, List.mem_cons_self, hstart, by simp only; omega⟩
      · rcases List.mem_cons.mp hl with rfl | hl
        · exact ⟨_, List.mem_cons_self, by simp only; omega, hstop⟩
        · exact ⟨later, List.mem_cons_of_mem _ hl, hstart, hstop⟩
    · rcases hx with hx | ⟨later, hl, hx⟩
      · exact ⟨r, List.mem_cons_self, hx⟩
      · exact ⟨later, List.mem_cons_of_mem _ hl, hx⟩

/-- **Removals cover what changes.** -/
theorem covers_ofSegments_iff :
    (∃ r ∈ ofSegments settings position segments, r.extent.Covers x) ↔
      ChangedAt position segments x := by
  refine ⟨fun ⟨r, hr, hx⟩ => changedAt_of_covers hr hx, fun h => ?_⟩
  induction segments generalizing position with
  | nil =>
    obtain ⟨y, n, -, hy⟩ := h
    cases hy
  | cons s ss ih =>
    rcases changedAt_cons_iff.mp h with ⟨n, rfl, hle, hlt⟩ | h
    · simp only [ofSegments]
      rw [if_neg (by omega)]
      exact covers_joinFront_of (spaced_ofSegments _ _ _) (by simp only; omega)
        (Or.inl ⟨hle, hlt⟩)
    · cases s with
      | changed n =>
        simp only [ofSegments]
        split
        · exact ih h
        · exact covers_joinFront_of (spaced_ofSegments _ _ _) (by simp only; omega)
            (Or.inr (ih h))
      | _ => exact ih h

/-- Each removal is a stretch that begins with a changed segment, of which it has its kind. Only
segments without a width stand in it that are not changed. -/
theorem stretch_of_mem (hr : r ∈ ofSegments settings position segments) :
    ∃ before n middle after,
      Stretch position segments r.extent before (.changed n :: middle) after ∧ n.span ≠ 0 ∧
      r.kind = kindOf settings n ∧ ∀ s ∈ middle, s.isChanged = false → s.width = 0 := by
  induction segments generalizing position r with
  | nil => cases hr
  | cons s ss ih =>
    have skip (hss : r ∈ ofSegments settings (position + s.width) ss) :
        ∃ before n middle after,
          Stretch position (s :: ss) r.extent before (.changed n :: middle) after ∧ n.span ≠ 0 ∧
          r.kind = kindOf settings n ∧ ∀ s ∈ middle, s.isChanged = false → s.width = 0 := by
      obtain ⟨before, n, middle, after, hstretch, hrest⟩ := ih hss
      exact ⟨s :: before, n, middle, after, hstretch.cons, hrest⟩
    cases s with
    | changed n =>
      simp only [ofSegments] at hr
      split at hr
      · exact skip hr
      · rename_i hn
        obtain ⟨q, rest, hq⟩ := List.exists_cons_of_ne_nil (List.ne_nil_of_mem hr)
        rw [hq] at hr
        rcases joinFront_eq_cons hq with ⟨rfl, rfl⟩ | ⟨next, hl, htouch, rfl⟩
        · rcases List.mem_cons.mp hr with rfl | hr
          · exact ⟨[], n, [], ss, ⟨rfl, by simp [width], by simpa [width] using hn⟩, hn, rfl,
              List.forall_mem_nil _⟩
          · exact skip hr
        · rcases List.mem_cons.mp hr with rfl | hr
          · -- the next removal starts here: nothing between the two has any width
            obtain ⟨before, m, middle, after, hstretch, -, -, hmiddle⟩ :=
              ih (hl ▸ List.mem_cons_self)
            have hextent := hstretch.extent
            have hz : totalWidth before = 0 := by
              rw [hextent] at htouch
              simp only at htouch
              omega
            refine ⟨[], n, before ++ .changed m :: middle, after, ⟨?_, ?_, ?_⟩, hn, rfl, ?_⟩
            · simp [hstretch.row]
            · simp [hextent, hz, width, Nat.add_assoc]
            · simp only [totalWidth_cons, width]
              omega
            · intro g hg hc
              rcases List.mem_append.mp hg with hg | hg
              · exact (totalWidth_eq_zero_iff before).mp hz g hg
              · rcases List.mem_cons.mp hg with rfl | hg
                · cases hc
                · exact hmiddle g hg hc
          · exact skip (hl ▸ List.mem_cons_of_mem _ hr)
    | _ => exact skip hr

end Removal

namespace Addition

variable {began : Option Nat} {position x : Nat} {segments : List Segment} {e : Extent}

theorem covers_close_of {start : Nat} (hle : start ≤ x) (hlt : x < position) :
    ∃ e ∈ close (some start) position, e.Covers x := by
  rw [close, if_pos (Nat.lt_of_le_of_lt hle hlt)]
  exact ⟨_, List.mem_singleton_self _, hle, hlt⟩

theorem covers_of_changedAt
    (h : (∃ start, began = some start ∧ start ≤ x ∧ x < position) ∨ ChangedAt position segments x)
    (hbegan : ∀ start ∈ began, start ≤ position) :
    ∃ e ∈ ofSegments began position segments, e.Covers x := by
  induction segments generalizing began position with
  | nil =>
    rcases h with ⟨start, rfl, hle, hlt⟩ | ⟨y, n, -, hy⟩
    · exact covers_close_of hle hlt
    · cases hy
  | cons s ss ih =>
    -- a segment that is not changed closes the run, and what changes is behind it
    have skip (hs : s.isChanged = false) : ∃ e ∈ close began position ++
        ofSegments none (position + s.width) ss, e.Covers x := by
      rcases h with ⟨start, rfl, hle, hlt⟩ | h
      · obtain ⟨e, he, hx⟩ := covers_close_of hle hlt
        exact ⟨e, List.mem_append_left _ he, hx⟩
      · rcases changedAt_cons_iff.mp h with ⟨n, rfl, -⟩ | h
        · cases hs
        · obtain ⟨e, he, hx⟩ : ∃ e ∈ ofSegments none (position + s.width) ss, e.Covers x :=
            ih (Or.inr h) (by simp)
          exact ⟨e, List.mem_append_right _ he, hx⟩
    cases s with
    | changed n =>
      have hstart : began.getD position ≤ position := by
        cases began with
        | none => exact Nat.le_refl _
        | some start => exact hbegan start rfl
      refine ih ?_ (by rintro start ⟨⟩; omega)
      rcases h with ⟨start, rfl, hle, hlt⟩ | h
      · exact Or.inl ⟨start, rfl, hle, by omega⟩
      · rcases changedAt_cons_iff.mp h with ⟨m, hm, hle, hlt⟩ | h
        · cases hm
          exact Or.inl ⟨_, rfl, by omega, hlt⟩
        · exact Or.inr h
    | _ => exact skip rfl

/-- **Additions cover what changes.** -/
theorem covers_ofSegments_iff :
    (∃ e ∈ ofSegments none position segments, e.Covers x) ↔ ChangedAt position segments x := by
  refine ⟨fun ⟨e, he, hx⟩ => ?_, fun h => covers_of_changedAt (Or.inr h) (by simp)⟩
  rcases changedAt_of_covers he hx with ⟨start, hnone, -⟩ | h
  · cases hnone
  · exact h

/-- A run of changed segments that ends where the row does or before one that is not changed. -/
structure Run (segments run after : List Segment) : Prop where
  row : segments = run ++ after
  changed : ∀ s ∈ run, s.isChanged = true
  stops : ∀ s ∈ after.head?, s.isChanged = false

theorem run_of_close (hstops : ∀ s ∈ segments.head?, s.isChanged = false)
    (he : e ∈ close began position) :
    ∃ run after, Run segments run after ∧ began = some e.start ∧ e.start < e.stop ∧
      e.stop = position + totalWidth run := by
  cases began with
  | none => cases he
  | some start =>
    simp only [close] at he
    split at he
    · rename_i hlt
      obtain rfl := List.mem_singleton.mp he
      exact ⟨[], segments, ⟨rfl, List.forall_mem_nil _, hstops⟩, rfl, hlt, rfl⟩
    · cases he

theorem run_or_stretch_of_mem (he : e ∈ ofSegments began position segments) :
    (∃ run after, Run segments run after ∧ began = some e.start ∧ e.start < e.stop ∧
      e.stop = position + totalWidth run) ∨
    ∃ before fresh after, Stretch position segments e before fresh after ∧
      Run (fresh ++ after) fresh after := by
  induction segments generalizing began position with
  | nil => exact Or.inl (run_of_close (by simp) he)
  | cons s ss ih =>
    have skip (hs : s.isChanged = false)
        (he : e ∈ close began position ++ ofSegments none (position + s.width) ss) :
        (∃ run after, Run (s :: ss) run after ∧ began = some e.start ∧ e.start < e.stop ∧
          e.stop = position + totalWidth run) ∨
        ∃ before fresh after, Stretch position (s :: ss) e before fresh after ∧
          Run (fresh ++ after) fresh after := by
      rcases List.mem_append.mp he with he | he
      · exact Or.inl (run_of_close (by simpa using hs) he)
      · rcases ih he with ⟨run, after, -, hnone, -⟩ | ⟨before, fresh, after, hstretch, hrun⟩
        · cases hnone
        · exact Or.inr ⟨s :: before, fresh, after, hstretch.cons, hrun⟩
    cases s with
    | changed n =>
      rcases ih he with ⟨run, after, ⟨rfl, hchanged, hstops⟩, hstart, hlt, hstop⟩ |
        ⟨before, fresh, after, hstretch, hrun⟩
      · have hrun : ∀ g ∈ .changed n :: run, g.isChanged = true :=
          List.forall_mem_cons.mpr ⟨rfl, hchanged⟩
        have hwidth : e.stop = position + totalWidth (.changed n :: run) := by
          rw [hstop, totalWidth_cons, Nat.add_assoc]
          rfl
        cases began with
        | some start => exact Or.inl ⟨_, after, ⟨rfl, hrun, hstops⟩, hstart, hlt, hwidth⟩
        | none =>
          -- the run begins with this segment
          obtain rfl : position = e.start := Option.some.inj hstart
          refine Or.inr ⟨[], .changed n :: run, after, ⟨rfl, ?_, by omega⟩, rfl, hrun, hstops⟩
          rw [totalWidth_nil, Nat.add_zero, ← hwidth]
      · exact Or.inr ⟨_, fresh, after, hstretch.cons, hrun⟩
    | _ => exact skip rfl he

/-- Each addition is a stretch of changed segments and ends before one that is not changed. -/
theorem stretch_of_mem (he : e ∈ ofSegments none position segments) :
    ∃ before fresh after, Stretch position segments e before fresh after ∧
      Run (fresh ++ after) fresh after := by
  rcases run_or_stretch_of_mem he with ⟨run, after, -, hnone, -⟩ | h
  · cases hnone
  · exact h

end Addition
end TreePatch
