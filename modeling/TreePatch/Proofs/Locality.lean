import TreePatch.Proofs.Fronts
import TreePatch.Proofs.Locations
import TreePatch.Proofs.Shape

/-! What a patch leaves alone. Removals and additions lie over changed segments, and a tree whose
handles are all different has each kept node where its segment is. So no change reaches into
what is kept in a front that both trees share (`front_untouched`). -/

namespace TreePatch

open Segment Scaffold

/-- The position lies inside the extent. -/
def Extent.Covers (e : Extent) (x : Nat) : Prop := e.start ≤ x ∧ x < e.stop

/-! ## The segment at a position -/

namespace Segment

/-- The segment that takes up a position of a row. -/
def segmentAt : List Segment → Nat → Option Segment
  | [], _ => none
  | s :: ss, x => if x < s.width then some s else segmentAt ss (x - s.width)

theorem segmentAt_cons_of_lt {s : Segment} {ss : List Segment} {x : Nat} (h : x < s.width) :
    segmentAt (s :: ss) x = some s := if_pos h

theorem segmentAt_cons_add (s : Segment) (ss : List Segment) (x : Nat) :
    segmentAt (s :: ss) (s.width + x) = segmentAt ss x := by
  rw [segmentAt, if_neg (by omega), Nat.add_sub_cancel_left]

theorem segmentAt_behind (a b : List Segment) (x : Nat) :
    segmentAt (a ++ b) (totalWidth a + x) = segmentAt b x := by
  induction a with
  | nil => rw [totalWidth_nil, Nat.zero_add, List.nil_append]
  | cons s a ih =>
    rw [List.cons_append, totalWidth_cons, Nat.add_assoc, segmentAt_cons_add, ih]

theorem segmentAt_front {a : List Segment} {x : Nat} {s : Segment} (b : List Segment)
    (h : segmentAt a x = some s) : segmentAt (a ++ b) x = some s := by
  induction a generalizing x with
  | nil => cases h
  | cons t a ih =>
    simp only [List.cons_append, segmentAt] at h ⊢
    split
    · rename_i hx
      rwa [if_pos hx] at h
    · rename_i hx
      rw [if_neg hx] at h
      exact ih h

/-- The position lies in a changed segment of a row that starts at another position. -/
def ChangedAt (position : Nat) (segments : List Segment) (x : Nat) : Prop :=
  ∃ y n, x = position + y ∧ segmentAt segments y = some (.changed n)

theorem changedAt_head {position x : Nat} {n : Node} (ss : List Segment) (hle : position ≤ x)
    (hlt : x < position + n.span) : ChangedAt position (.changed n :: ss) x := by
  obtain ⟨y, rfl⟩ := Nat.exists_eq_add_of_le hle
  exact ⟨y, n, rfl, segmentAt_cons_of_lt (Nat.add_lt_add_iff_left.mp hlt)⟩

theorem ChangedAt.cons {position x : Nat} {s : Segment} {ss : List Segment}
    (h : ChangedAt (position + s.width) ss x) : ChangedAt position (s :: ss) x := by
  obtain ⟨y, n, rfl, hy⟩ := h
  exact ⟨s.width + y, n, Nat.add_assoc _ _ _, (segmentAt_cons_add s ss y).trans hy⟩

end Segment

/-- A removal put in front covers nothing that was not covered before. -/
theorem Removal.covers_of_joinFront {r joined : Removal} {rs : List Removal} {x : Nat}
    (hj : joined ∈ joinFront r rs) (hx : joined.extent.Covers x) :
    r.extent.Covers x ∨ ∃ later ∈ rs, later.extent.Covers x := by
  cases rs with
  | nil =>
    obtain rfl := List.mem_singleton.mp hj
    exact Or.inl hx
  | cons next rest =>
    simp only [joinFront] at hj
    split at hj
    · rename_i htouch
      rcases List.mem_cons.mp hj with rfl | hj
      · obtain ⟨hstart, hstop⟩ := hx
        by_cases hin : x < r.extent.stop
        · exact Or.inl ⟨hstart, hin⟩
        · exact Or.inr ⟨next, List.mem_cons_self, by omega, hstop⟩
      · exact Or.inr ⟨joined, List.mem_cons_of_mem _ hj, hx⟩
    · rcases List.mem_cons.mp hj with rfl | hj
      · exact Or.inl hx
      · exact Or.inr ⟨joined, hj, hx⟩

/-- What is removed stands in a changed segment. -/
theorem Removal.changedAt_of_covers {settings : Settings} {position x : Nat}
    {segments : List Segment} {r : Removal} (hr : r ∈ ofSegments settings position segments)
    (hx : r.extent.Covers x) : ChangedAt position segments x := by
  induction segments generalizing position r with
  | nil => cases hr
  | cons s ss ih =>
    cases s with
    | changed n =>
      simp only [ofSegments] at hr
      split at hr
      · exact .cons (ih hr hx)
      · rcases covers_of_joinFront hr hx with ⟨hstart, hstop⟩ | ⟨later, hl, hcovers⟩
        · exact changedAt_head ss hstart hstop
        · exact .cons (ih hl hcovers)
    | _ => exact .cons (ih hr hx)

theorem Addition.covers_of_close {began : Option Nat} {position x : Nat} {e : Extent}
    (he : e ∈ close began position) (hx : e.Covers x) :
    ∃ start, began = some start ∧ start ≤ x ∧ x < position := by
  cases began with
  | none => cases he
  | some start =>
    simp only [close] at he
    split at he
    · obtain rfl := List.mem_singleton.mp he
      exact ⟨start, rfl, hx⟩
    · cases he

/-- What is added stands in a changed segment or in the run that had begun. -/
theorem Addition.changedAt_of_covers {began : Option Nat} {position x : Nat}
    {segments : List Segment} {e : Extent} (he : e ∈ ofSegments began position segments)
    (hx : e.Covers x) :
    (∃ start, began = some start ∧ start ≤ x ∧ x < position) ∨ ChangedAt position segments x := by
  induction segments generalizing began position with
  | nil => exact Or.inl (covers_of_close he hx)
  | cons s ss ih =>
    cases s with
    | changed n =>
      rcases ih he with ⟨start, hstart, hle, hlt⟩ | hfound
      · -- the run goes on, so the position is in this segment or was in the run before
        obtain rfl := Option.some.inj hstart
        by_cases hin : position ≤ x
        · exact Or.inr (changedAt_head ss hin hlt)
        · cases began with
          | none => exact absurd hle hin
          | some start => exact Or.inl ⟨start, rfl, hle, Nat.lt_of_not_le hin⟩
      · exact Or.inr hfound.cons
    | _ =>
      rcases List.mem_append.mp he with he | he
      · exact Or.inl (covers_of_close he hx)
      · rcases ih he with ⟨start, hstart, -⟩ | hfound
        · cases hstart
        · exact Or.inr hfound.cons

/-! ## Kept nodes are where their segments are -/

namespace Node

theorem handlesAmong_append (a b : List Node) :
    handlesAmong (a ++ b) = handlesAmong a ++ handlesAmong b := by
  induction a with
  | nil => rfl
  | cons n a ih => simp only [List.cons_append, handlesAmong, ih, List.append_assoc]

theorem totalWidth_surveyAmong {ns : List Node} (s : Sieve) (hs : AllSized ns) :
    totalWidth (surveyAmong s ns) = spanAmong ns := by
  have hrow : ∀ seg ∈ surveyAmong s ns, seg.Sized := fun seg hseg =>
    sized_of_node fun n hn => hs n (node_mem_surveyAmong s ns n seg hseg hn)
  rw [← size_rendering hrow, Segment.rendering, surveyAmong_tokens, Fragment.size_ofTokens,
    Forest.spanAmong_eq fun n hn => (hs.child hn).1]

theorem handles_eq_cons (n : Node) : n.handles = n.handle :: handlesAmong n.children := by
  cases n <;> rfl

theorem handlesAmong_split {ns : List Node} {i : Nat} {n : Node} (h : ns[i]? = some n) :
    handlesAmong ns =
      handlesAmong (ns.take i) ++ (n.handles ++ handlesAmong (ns.drop (i + 1))) := by
  calc handlesAmong ns = handlesAmong (ns.take i ++ n :: ns.drop (i + 1)) :=
        congrArg _ (eq_take_append_drop h)
    _ = _ := by rw [handlesAmong_append, handlesAmong]

theorem surveyAmong_split (s : Sieve) {ns : List Node} {i : Nat} {n : Node}
    (h : ns[i]? = some n) :
    surveyAmong s ns =
      surveyAmong s (ns.take i) ++ (survey s n ++ surveyAmong s (ns.drop (i + 1))) := by
  calc surveyAmong s ns = surveyAmong s (ns.take i ++ n :: ns.drop (i + 1)) :=
        congrArg _ (eq_take_append_drop h)
    _ = _ := by rw [surveyAmong_append, surveyAmong]

/-- A path leads to a node among the handles. -/
theorem handle_mem_of_follow {n m : Node} {position start : Nat} {path : List Nat}
    (h : n.follow position path = some (m, start)) : m.handle ∈ n.handles := by
  induction path generalizing n position with
  | nil =>
    obtain ⟨rfl, rfl⟩ := Prod.mk.inj (Option.some.inj h)
    exact handle_mem_handles n
  | cons i path ih =>
    rw [follow_cons] at h
    obtain ⟨c, hc, hfollow⟩ := followAmong_cons_eq_some_iff.mp h
    rw [handles_eq_cons, handlesAmong_split hc]
    exact List.mem_cons_of_mem _ (List.mem_append_right _ (List.mem_append_left _ (ih hfollow)))

theorem handle_mem_below {n m : Node} {position start i : Nat} {path : List Nat}
    (h : n.follow position (i :: path) = some (m, start)) : m.handle ∈ handlesAmong n.children := by
  rw [follow_cons] at h
  obtain ⟨c, hc, hfollow⟩ := followAmong_cons_eq_some_iff.mp h
  rw [handlesAmong_split hc]
  exact List.mem_append_right _ (List.mem_append_left _ (handle_mem_of_follow hfollow))

/-- What is kept of a node is the node, or is kept between its boundaries. -/
theorem kept_survey_cases {s : Sieve} {n : Node} {h : Handle}
    (hm : h ∈ keptHandles (ofSegments (survey s n))) :
    (s.keeps n = true ∧ h = n.handle) ∨
      (h ∈ keptHandles (ofSegments (surveyAmong s n.children)) ∧ ∃ kind,
        survey s n = .opening kind :: (surveyAmong s n.children ++ [.closing kind])) := by
  rw [keptHandles_survey] at hm
  cases hk : s.keeps n with
  | true =>
    rw [if_pos hk] at hm
    exact Or.inl ⟨rfl, List.mem_singleton.mp hm⟩
  | false =>
    cases hc : s.changes n with
    | true => simp [hk, hc] at hm
    | false =>
      simp only [hk, hc, Bool.false_eq_true, ↓reduceIte] at hm
      refine Or.inr ⟨hm, ?_⟩
      cases n with
      | leaf tag text => cases hm
      | branch tag kind below =>
        have hany : (surveyAmong s below).any isKept = true :=
          (any_isKept_iff _).mpr (List.ne_nil_of_mem hm)
        exact ⟨kind, by simp only [survey, hk, hc, hany, children, Bool.false_eq_true, ↓reduceIte,
          List.cons_append]⟩

/-- A handle of one tree is kept in that tree if it is kept in a row without repeated handles. -/
theorem kept_survey_of_mem {s : Sieve} {ns : List Node} {i : Nat} {n : Node} {h : Handle}
    (once : (handlesAmong ns).Nodup) (hn : ns[i]? = some n) (hm : h ∈ n.handles)
    (hk : h ∈ keptHandles (ofSegments (surveyAmong s ns))) :
    n.handles.Nodup ∧ h ∈ keptHandles (ofSegments (survey s n)) := by
  rw [handlesAmong_split hn, List.nodup_append, List.nodup_append] at once
  obtain ⟨-, ⟨honce, -, hbehind⟩, hbefore⟩ := once
  refine ⟨honce, ?_⟩
  rw [surveyAmong_split s hn, ofSegments_append, ofSegments_append, keptHandles_append,
    keptHandles_append, List.mem_append, List.mem_append] at hk
  rcases hk with hk | hk | hk
  · have hfront := (kept_sublist_surveyAmong s _).subset hk
    exact absurd rfl (hbefore h hfront h (List.mem_append_left _ hm))
  · exact hk
  · have hback := (kept_sublist_surveyAmong s _).subset hk
    exact absurd rfl (hbehind h hm h hback)

/-- What has a position in the survey of one tree has it behind the trees before. -/
theorem segmentAt_surveyAmong {s : Sieve} {ns : List Node} {i x : Nat} {n : Node} {seg : Segment}
    (hs : AllSized ns) (hn : ns[i]? = some n) (h : segmentAt (survey s n) x = some seg) :
    segmentAt (surveyAmong s ns) (spanAmong (ns.take i) + x) = some seg := by
  have hfront : AllSized (ns.take i) := by
    intro m hm
    obtain ⟨c, hc, hm⟩ := mem_nodesAmong.mp hm
    exact hs m (mem_nodesAmong.mpr ⟨c, List.mem_of_mem_take hc, hm⟩)
  rw [surveyAmong_split s hn, ← totalWidth_surveyAmong s hfront, segmentAt_behind]
  exact segmentAt_front _ h

/-- **A kept node is located at its segment** in a row of trees without repeated handles. -/
theorem segmentAt_of_followAmong {s : Sieve} {ns : List Node} {m : Node} {position start : Nat}
    {path : List Nat} (hs : AllSized ns) (once : (handlesAmong ns).Nodup)
    (hk : m.handle ∈ keptHandles (ofSegments (surveyAmong s ns)))
    (h : followAmong position ns path = some (m, start)) :
    ∃ offset, start = position + offset ∧
      ∀ y < m.span, segmentAt (surveyAmong s ns) (offset + y) = some (.kept m) := by
  induction path generalizing ns position with
  | nil => cases h
  | cons i path ih =>
    obtain ⟨n, hn, hfollow⟩ := followAmong_cons_eq_some_iff.mp h
    obtain ⟨honce, hkn⟩ := kept_survey_of_mem once hn (handle_mem_of_follow hfollow) hk
    rw [handles_eq_cons, List.nodup_cons] at honce
    obtain ⟨hself, hbelow⟩ := honce
    suffices hnode : ∃ offset, start = position + spanAmong (ns.take i) + offset ∧
        ∀ y < m.span, segmentAt (survey s n) (offset + y) = some (.kept m) by
      obtain ⟨offset, hstart, hat⟩ := hnode
      refine ⟨spanAmong (ns.take i) + offset, by omega, fun y hy => ?_⟩
      rw [Nat.add_assoc]
      exact segmentAt_surveyAmong hs hn (hat y hy)
    rcases kept_survey_cases hkn with ⟨hkeeps, he⟩ | ⟨hin, kind, hrow⟩
    · cases path with
      | nil =>
        obtain ⟨rfl, rfl⟩ := Prod.mk.inj (Option.some.inj hfollow)
        refine ⟨0, rfl, fun y hy => ?_⟩
        rw [survey_of_keeps hkeeps, Nat.zero_add]
        exact segmentAt_cons_of_lt hy
      | cons j path => exact absurd (he ▸ handle_mem_below hfollow) hself
    · cases path with
      | nil =>
        obtain ⟨rfl, rfl⟩ := Prod.mk.inj (Option.some.inj hfollow)
        exact absurd ((kept_sublist_surveyAmong s _).subset hin) hself
      | cons j path =>
        obtain ⟨-, hchildren⟩ := hs.child (List.mem_of_getElem? hn)
        obtain ⟨offset, hstart, hat⟩ := ih hchildren hbelow hin hfollow
        refine ⟨1 + offset, by omega, fun y hy => ?_⟩
        rw [hrow, Nat.add_assoc]
        exact (segmentAt_cons_add (.opening kind) _ _).trans (segmentAt_front _ (hat y hy))

/-- No segment changes where a node is located that is kept. -/
theorem not_changedAt_of_locate {s : Sieve} {root m : Node} {start x : Nat} {path : List Nat}
    (hs : AllSized [root]) (once : root.handles.Nodup)
    (hk : m.handle ∈ keptHandles (ofSegments (surveyRoot s root)))
    (h : root.locate path = some (m, start)) (hle : start ≤ x) (hlt : x < start + m.span) :
    ¬ ChangedAt 0 (surveyRoot s root) x := by
  rintro ⟨y, n, rfl, hchanged⟩
  rw [Nat.zero_add] at hle hlt
  obtain ⟨-, hchildren⟩ := hs.child List.mem_cons_self
  rw [handles_eq_cons, List.nodup_cons] at once
  cases hroot : s.keeps root with
  | true =>
    rw [surveyRoot_of_keeps hroot, segmentAt] at hchanged
    split at hchanged <;> cases hchanged
  | false =>
    cases root with
    | leaf tag text =>
      simp only [surveyRoot, hroot, Bool.false_eq_true, ↓reduceIte] at hk
      cases hk
    | branch tag kind children =>
      rw [surveyRoot_branch s tag kind children hroot] at hk hchanged
      cases path with
      | nil =>
        obtain ⟨rfl, rfl⟩ := Prod.mk.inj (Option.some.inj h)
        exact absurd ((kept_sublist_surveyAmong s _).subset hk) once.1
      | cons i path =>
        rw [locate] at h
        obtain ⟨offset, rfl, hat⟩ := segmentAt_of_followAmong hchildren once.2 hk h
        rw [Nat.zero_add] at hle hlt
        obtain ⟨z, rfl⟩ := Nat.exists_eq_add_of_le hle
        cases (hat z (Nat.add_lt_add_iff_left.mp hlt)).symm.trans hchanged

end Node

open Node

/-- **Agreed fronts are left alone.** Take any front of both first scaffolds in which every branch
is closed, such as the longest, and trees in which no handle occurs twice. Then nothing kept in
the front is ever uprooted and the scaffolds begin with it in the end. The patch removes
nothing of what is kept there, by its positions in the old tree, and adds nothing over it, by
its positions in the new one. -/
theorem front_untouched {f : Forest} (hf : f.Reachable) {p c : Handle} {old new : Node}
    (hp : f.node p = .ok old) (hc : f.node c = .ok new) (next : new.born = old.born + 1)
    (once_old : old.handles.Nodup) (once_new : new.handles.Nodup) {u : Scaffold}
    (closed : u.Closed) (hold : u <+: oldScaffold f.claimedAt old ∅)
    (hnew : u <+: newScaffold new ∅) :
    (∀ h ∈ u.keptHandles, h ∉ (f.settled old new).uprooted) ∧
    u <+: ofSegments (f.settled old new).old ∧ u <+: ofSegments (f.settled old new).new ∧
    ∃ patch removals additions, Patch.between f p c = .ok patch ∧
      patch.Makes ⟨0, old.innerSpan⟩ new.content removals additions ∧
      (∀ r ∈ removals, ∀ path n start, old.locate path = some (n, start) →
        n.handle ∈ u.keptHandles → ∀ x, start ≤ x → x < start + n.span → ¬ r.extent.Covers x) ∧
      ∀ e ∈ additions, ∀ path n start, new.locate path = some (n, start) →
        n.handle ∈ u.keptHandles → ∀ x, start ≤ x → x < start + n.span → ¬ e.Covers x := by
  have hu : u.Nested := (nested_oldScaffold f.claimedAt old ∅).front hold closed
  obtain ⟨hstay, hfront_old, hfront_new⟩ :
      (∀ h ∈ u.keptHandles, h ∉ (f.settled old new).uprooted) ∧
        u <+: ofSegments (f.settled old new).old ∧ u <+: ofSegments (f.settled old new).new :=
    front_stays hu once_old once_new hold hnew
  obtain ⟨patch, hpatch⟩ := hf.sound.between_ok hp hc next
  have hmakes := Patch.makes_of_assemble
    ((Patch.between_eq_assemble hp hc next).symm.trans hpatch)
  have hkept : ∀ {row : Scaffold}, u <+: row → ∀ h ∈ u.keptHandles, h ∈ row.keptHandles := by
    rintro row ⟨rest, rfl⟩ h hm
    exact keptHandles_append u rest ▸ List.mem_append_left _ hm
  refine ⟨hstay, hfront_old, hfront_new, patch, _, _, hpatch, hmakes, ?_, ?_⟩
  · intro r hr path n start hlocate hm x hle hlt hx
    have hk := hkept hfront_old _ hm
    have hchanged := Removal.changedAt_of_covers hr hx
    rw [Forest.old_settled] at hk hchanged
    exact not_changedAt_of_locate (hf.sound.allSized hp) once_old hk hlocate hle hlt hchanged
  · intro e he path n start hlocate hm x hle hlt hx
    have hk := hkept hfront_new _ hm
    rcases Addition.changedAt_of_covers he hx with ⟨_, hnone, -⟩ | hchanged
    · cases hnone
    rw [Forest.new_settled] at hk hchanged
    exact not_changedAt_of_locate (hf.sound.allSized hc) once_new hk hlocate hle hlt hchanged

/-- A section is built anew around its text, and the text behind it goes into a paragraph. -/
def tuckedForest : Forest :=
  Scripted.forest [
    .build (.branch "doc" [.branch "section" [.leaf "ab" none] none, .leaf "x" none] none),
    .advance,
    .build (.branch "doc" [.branch "section" [.node (.index 0)] none,
      .branch "paragraph" [.node (.index 2)] none] none)]

def openText : Node :=
  .branch ⟨⟨0, 3⟩, 7, 0, 0, 0⟩ "doc" [
    .branch ⟨⟨0, 1⟩, 4, 0, 0, 0⟩ "section" [.leaf ⟨⟨0, 0⟩, 2, 0, 0, 0⟩ "ab"],
    .leaf ⟨⟨0, 2⟩, 1, 0, 0, 0⟩ "x"]

def tuckedText : Node :=
  .branch ⟨⟨0, 6⟩, 9, 1, 1, 0⟩ "doc" [
    .branch ⟨⟨0, 4⟩, 4, 1, 0, 0⟩ "section" [.leaf ⟨⟨0, 0⟩, 2, 0, 0, 0⟩ "ab"],
    .branch ⟨⟨0, 5⟩, 3, 1, 0, 0⟩ "paragraph" [.leaf ⟨⟨0, 2⟩, 1, 0, 0, 0⟩ "x"]]

def sectionFront : Scaffold := [.opening "section", .kept ⟨0, 0⟩, .closing "section"]

theorem closed_sectionFront : sectionFront.Closed := by
  rintro (_ | _ | _ | i) kind h
  · decide
  · cases h
  · cases h
  · cases h

/-- The scaffolds part behind the section, and its text is not touched for it. -/
theorem front_untouched_tucked : ∃ patch,
    tuckedForest.node ⟨0, 3⟩ = .ok openText ∧ tuckedForest.node ⟨0, 6⟩ = .ok tuckedText ∧
    oldScaffold tuckedForest.claimedAt openText ∅ ≠ newScaffold tuckedText ∅ ∧
    ⟨0, 0⟩ ∉ (tuckedForest.settled openText tuckedText).uprooted ∧
    sectionFront <+: ofSegments (tuckedForest.settled openText tuckedText).old ∧
    Patch.between tuckedForest ⟨0, 3⟩ ⟨0, 6⟩ = .ok patch ∧
    (∀ e ∈ patch.filterMap Step.removed?, ¬ e.Covers 1 ∧ ¬ e.Covers 2) ∧
    ∀ e ∈ patch.filterMap Step.added?, ¬ e.Covers 1 ∧ ¬ e.Covers 2 := by
  have hp : tuckedForest.node ⟨0, 3⟩ = .ok openText := rfl
  have hc : tuckedForest.node ⟨0, 6⟩ = .ok tuckedText := rfl
  obtain ⟨hstay, hfront, -, patch, removals, additions, hpatch, hmakes, hremoved, hadded⟩ :=
    front_untouched (Scripted.reachable_forest _) hp hc rfl (by decide) (by decide)
      closed_sectionFront (by decide +kernel) (by decide +kernel)
  have hkept : (⟨0, 0⟩ : Handle) ∈ sectionFront.keptHandles := by decide
  refine ⟨patch, hp, hc, by decide +kernel, hstay _ hkept, hfront, hpatch, ?_, ?_⟩
  · intro e he
    rw [hmakes.removed, List.mem_reverse] at he
    obtain ⟨r, hr, rfl⟩ := List.mem_map.mp he
    have huntouched := hremoved r hr [0, 0] _ 1 rfl hkept
    exact ⟨huntouched 1 (by decide) (by decide), huntouched 2 (by decide) (by decide)⟩
  · intro e he
    have hin : e ∈ additions := by
      rcases hmakes.added with h | ⟨first, filler, h, -⟩
      · exact h ▸ he
      · exact h ▸ List.mem_cons_of_mem _ he
    have huntouched := hadded e hin [0, 0] _ 1 rfl hkept
    exact ⟨huntouched 1 (by decide) (by decide), huntouched 2 (by decide) (by decide)⟩

end TreePatch
