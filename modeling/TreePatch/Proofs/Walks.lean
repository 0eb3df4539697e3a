import TreePatch.Proofs.Nesting
import TreePatch.Proofs.Shape
import TreePatch.Proofs.Siblings

/-! A survey and what is read off it, done in one walk that notes as it goes. What a branch notes is
only kept once something is kept in it; else the walk goes back to where the branch began. The walk
over an old tree and the walk over a new one both come out as the survey does (`detach_eq_walk`,
`extract_eq_walk`), whatever has been uprooted. -/

namespace TreePatch

open Segment Scaffold

/-- The content of a root that goes, and the scaffold that is left. -/
def Forest.detach (f : Forest) (uprooted : Handle → Bool) (root : Handle) :
    Except Error (List Removal × Scaffold) := do
  let n ← f.node root
  let row := surveyOld f.claimedAt uprooted n
  return (Removal.ofSegments f.settings 0 row, Scaffold.ofSegments row)

/-- The content of a root that comes, and the scaffold it is put into. -/
def Forest.extract (f : Forest) (uprooted : Handle → Bool) (root : Handle) :
    Except Error (List Extent × Scaffold) := do
  let n ← f.node root
  let row := surveyNew uprooted n
  return (Addition.ofSegments none 0 row, Scaffold.ofSegments row)

/-! ## The walk over an old tree -/

namespace Removal

/-- Puts a removal behind the others, joining it with the last if that stops where it starts. -/
def joinBack (rs : List Removal) (r : Removal) : List Removal :=
  match rs.getLast? with
  | some last =>
    if last.extent.stop = r.extent.start then
      rs.dropLast ++ [{ last with extent := ⟨last.extent.start, r.extent.stop⟩ }]
    else rs ++ [r]
  | none => [r]

theorem joinBack_concat (rs : List Removal) (last r : Removal) :
    joinBack (rs ++ [last]) r = if last.extent.stop = r.extent.start then
      rs ++ [{ last with extent := ⟨last.extent.start, r.extent.stop⟩ }]
    else rs ++ [last, r] := by
  simp [joinBack]

theorem joinBack_append (rs : List Removal) {more : List Removal} (h : more ≠ []) (r : Removal) :
    joinBack (rs ++ more) r = rs ++ joinBack more r := by
  obtain ⟨front, last, rfl⟩ := (List.eq_nil_or_concat' more).resolve_left h
  rw [← List.append_assoc, joinBack_concat, joinBack_concat]
  split <;> simp

theorem joinBack_joinBack (rs : List Removal) {r next : Removal}
    (h : r.extent.stop = next.extent.start) :
    joinBack (joinBack rs r) next =
      joinBack rs { r with extent := ⟨r.extent.start, next.extent.stop⟩ } := by
  rcases List.eq_nil_or_concat' rs with rfl | ⟨front, last, rfl⟩
  · simp [joinBack, h]
  · rw [joinBack_concat, joinBack_concat]
    split
    · rw [joinBack_concat, if_pos h]
    · rw [show front ++ [last, r] = front ++ [last] ++ [r] by simp, joinBack_concat, if_pos h]
      simp

/-- To join a removal with the next before they are put behind others makes no difference. -/
theorem foldl_joinBack_joinFront (rs : List Removal) (r : Removal) (later : List Removal) :
    (joinFront r later).foldl joinBack rs = later.foldl joinBack (joinBack rs r) := by
  cases later with
  | nil => rfl
  | cons next later =>
    simp only [joinFront]
    split
    · rename_i hj
      rw [List.foldl_cons, List.foldl_cons, joinBack_joinBack rs hj]
    · rfl

theorem foldl_joinBack_append (rs : List Removal) {more : List Removal} (h : more ≠ [])
    (later : List Removal) :
    later.foldl joinBack (rs ++ more) = rs ++ later.foldl joinBack more := by
  induction later generalizing more with
  | nil => rfl
  | cons r later ih =>
    have hne : joinBack more r ≠ [] := by
      obtain ⟨front, last, rfl⟩ := (List.eq_nil_or_concat' more).resolve_left h
      rw [joinBack_concat]
      split <;> simp
    rw [List.foldl_cons, List.foldl_cons, joinBack_append rs h, ih hne]

/-- Removals that start later than all the others stop do not change them. -/
theorem foldl_joinBack_apart {rs later : List Removal} {position : Nat}
    (hrs : ∀ r ∈ rs, r.extent.stop < position)
    (hlater : ∀ r ∈ later, position ≤ r.extent.start) :
    later.foldl joinBack rs = rs ++ later.foldl joinBack [] := by
  cases later with
  | nil => simp
  | cons r later =>
    have hfirst : joinBack rs r = rs ++ [r] := by
      rcases List.eq_nil_or_concat' rs with rfl | ⟨front, last, rfl⟩
      · rfl
      · have hlast := hrs last (by simp)
        have hr := hlater r List.mem_cons_self
        rw [joinBack_concat, if_neg (by omega)]
        simp
    rw [List.foldl_cons, List.foldl_cons, hfirst, foldl_joinBack_append rs (by simp)]
    rfl

/-- Removals that do not touch each other stay as they are. -/
theorem foldl_joinBack_nil {rs : List Removal} {start stop : Nat}
    (h : Extent.Spaced 1 start stop (rs.map extent)) : rs.foldl joinBack [] = rs := by
  induction rs generalizing start with
  | nil => rfl
  | cons r rs ih =>
    obtain ⟨hnext, hrest⟩ := List.pairwise_cons.mp h.apart
    have hspaced : Extent.Spaced 1 (r.extent.stop + 1) stop (rs.map extent) :=
      ⟨hrest, fun e he =>
        ⟨hnext e he, (h.inside e (List.mem_cons_of_mem _ he)).2⟩⟩
    have hbehind : ∀ q ∈ rs, r.extent.stop + 1 ≤ q.extent.start := fun q hq =>
      hnext q.extent (List.mem_map_of_mem hq)
    rw [List.foldl_cons, show joinBack [] r = [r] from rfl,
      foldl_joinBack_apart (by simp) hbehind, ih hspaced]
    rfl

end Removal

/-- What has been noted so far. -/
structure Detaching where
  removals : List Removal := []
  scaffold : Scaffold := []
  deriving DecidableEq, Repr

namespace Detaching

def mark (d : Detaching) (p : Piece) : Detaching := { d with scaffold := d.scaffold ++ [p] }

def remove (d : Detaching) (r : Removal) : Detaching :=
  { d with removals := Removal.joinBack d.removals r }

mutual

/-- Walks a node that starts at a position. -/
def walk (settings : Settings) (s : Sieve) (position : Nat) (d : Detaching) : Node → Detaching
  | .leaf tag text =>
    if s.keeps (.leaf tag text) then d.mark (.kept tag.handle)
    else if tag.span = 0 then d
    else d.remove ⟨⟨position, position + tag.span⟩, settings.leafKind⟩
  | .branch tag kind children =>
    if s.keeps (.branch tag kind children) then d.mark (.kept tag.handle)
    else
      let inside := walkAmong settings s (position + 1) (d.mark (.opening kind)) children
      if inside.scaffold.length = d.scaffold.length + 1 then
        remove ⟨inside.removals.take d.removals.length, inside.scaffold.take d.scaffold.length⟩
          ⟨⟨position, position + 1 + Node.spanAmong children + 1⟩, kind⟩
      else inside.mark (.closing kind)

def walkAmong (settings : Settings) (s : Sieve) (position : Nat) (d : Detaching) :
    List Node → Detaching
  | [] => d
  | n :: ns => walkAmong settings s (position + n.span) (walk settings s position d n) ns

end

/-- The boundaries of the root have no positions, and it is not noted as a branch. -/
def walkRoot (settings : Settings) (s : Sieve) (root : Node) : Detaching :=
  if s.keeps root then mark {} (.kept root.handle)
  else match root with
    | .leaf _ _ => walk settings s 0 {} root
    | .branch _ _ children => walkAmong settings s 0 {} children

/-- Notes a row of segments that starts at a position. -/
def read (settings : Settings) (position : Nat) (d : Detaching) : List Segment → Detaching
  | [] => d
  | .changed n :: rest => read settings (position + n.span)
      (if n.span = 0 then d
        else d.remove ⟨⟨position, position + n.span⟩, Removal.kindOf settings n⟩) rest
  | .kept n :: rest => read settings (position + n.span) (d.mark (.kept n.handle)) rest
  | .opening kind :: rest => read settings (position + 1) (d.mark (.opening kind)) rest
  | .closing kind :: rest => read settings (position + 1) (d.mark (.closing kind)) rest

theorem read_append (settings : Settings) (position : Nat) (d : Detaching) (a b : List Segment) :
    read settings position d (a ++ b) =
      read settings (position + totalWidth a) (read settings position d a) b := by
  induction a generalizing position d with
  | nil => rfl
  | cons s a ih => cases s <;> simp only [List.cons_append, read, ih, totalWidth_cons, width,
      Nat.add_assoc]

theorem scaffold_read (settings : Settings) (position : Nat) (d : Detaching)
    (row : List Segment) :
    (read settings position d row).scaffold = d.scaffold ++ Scaffold.ofSegments row := by
  induction row generalizing position d with
  | nil => simp [read, Scaffold.ofSegments]
  | cons s row ih =>
    cases s with
    | changed n =>
      simp only [read, ih]
      split <;> rfl
    | _ => simp [read, ih, mark, Scaffold.ofSegments, piece?]

theorem removals_read (settings : Settings) (position : Nat) (d : Detaching)
    (row : List Segment) :
    (read settings position d row).removals =
      (Removal.ofSegments settings position row).foldl Removal.joinBack d.removals := by
  induction row generalizing position d with
  | nil => rfl
  | cons s row ih =>
    cases s with
    | changed n =>
      simp only [read, ih, Removal.ofSegments]
      split
      · rfl
      · rw [Removal.foldl_joinBack_joinFront]
        rfl
    | _ => exact ih _ _

/-- A row noted from the start comes out as its removals and its scaffold. -/
theorem read_start (settings : Settings) (row : List Segment) :
    read settings 0 {} row = ⟨Removal.ofSegments settings 0 row, Scaffold.ofSegments row⟩ := by
  have hremovals := removals_read settings 0 {} row
  have hscaffold := scaffold_read settings 0 {} row
  rw [Removal.foldl_joinBack_nil (Removal.spaced_ofSegments settings 0 row)] at hremovals
  rw [List.nil_append] at hscaffold
  rw [← hremovals, ← hscaffold]

/-- Nothing noted so far reaches behind the position. -/
def Before (d : Detaching) (position : Nat) : Prop :=
  ∀ r ∈ d.removals, r.extent.stop ≤ position

theorem Before.weaken {d : Detaching} {position later : Nat} (h : d.Before position)
    (hle : position ≤ later) : d.Before later :=
  fun r hr => Nat.le_trans (h r hr) hle

theorem Before.remove {d : Detaching} {position : Nat} (h : d.Before position) {r : Removal}
    (hr : r.extent.stop ≤ position) : (d.remove r).Before position := by
  intro q hq
  simp only [Detaching.remove] at hq
  rcases List.eq_nil_or_concat' d.removals with hnil | ⟨front, last, hconcat⟩
  · rw [hnil] at hq
    obtain rfl := List.mem_singleton.mp hq
    exact hr
  · have hfront : ∀ q ∈ front, q.extent.stop ≤ position := fun q hq => h q (by simp [hconcat, hq])
    have hlast : last.extent.stop ≤ position := h last (by simp [hconcat])
    rw [hconcat, Removal.joinBack_concat] at hq
    split at hq
    · rcases List.mem_append.mp hq with hq | hq
      · exact hfront q hq
      · obtain rfl := List.mem_singleton.mp hq
        exact hr
    · simp only [List.mem_append, List.mem_cons, List.not_mem_nil, or_false] at hq
      rcases hq with hq | rfl | rfl
      · exact hfront q hq
      · exact hlast
      · exact hr

theorem Before.read {position : Nat} {d : Detaching} (h : d.Before position) (settings : Settings)
    (row : List Segment) :
    (Detaching.read settings position d row).Before (position + totalWidth row) := by
  induction row generalizing position d with
  | nil => exact h
  | cons s row ih =>
    rw [totalWidth_cons, ← Nat.add_assoc]
    cases s with
    | changed n =>
      have hlater : d.Before (position + n.span) := h.weaken (Nat.le_add_right _ _)
      refine ih ?_
      split
      · exact hlater
      · exact hlater.remove (Nat.le_refl _)
    | _ => exact ih (h.weaken (Nat.le_add_right _ _))

end Detaching

/-- Nothing is kept in a row just if its scaffold is empty. -/
theorem any_isKept_eq_false_iff (s : Sieve) (ns : List Node) :
    (surveyAmong s ns).any isKept = false ↔ Scaffold.ofSegments (surveyAmong s ns) = [] := by
  rw [← Bool.not_eq_true, Scaffold.any_isKept_iff, ne_eq, not_not]
  exact ⟨(nested_surveyAmong s ns).eq_nil, fun h => by rw [h]; rfl⟩

/-- Else the scaffold has a length. -/
theorem length_scaffold_pos {s : Sieve} {ns : List Node}
    (h : (surveyAmong s ns).any isKept = true) :
    0 < (Scaffold.ofSegments (surveyAmong s ns)).length := by
  refine List.length_pos_iff.mpr fun hnil => ?_
  rw [(any_isKept_eq_false_iff s ns).mpr hnil] at h
  cases h

namespace Detaching

variable (settings : Settings) {s : Sieve}

/-- What was noted in a branch can be taken back: nothing before it has changed. -/
theorem take_back {position : Nat} {d : Detaching} (hd : d.Before position) (kind : String)
    (row : List Segment) :
    let inside := read settings (position + 1) (d.mark (.opening kind)) row
    inside.removals.take d.removals.length = d.removals ∧
      inside.scaffold.take d.scaffold.length = d.scaffold := by
  intro inside
  have hlater : ∀ r ∈ Removal.ofSegments settings (position + 1) row,
      position + 1 ≤ r.extent.start := fun r hr =>
    ((Removal.spaced_ofSegments settings (position + 1) row).inside r.extent
      (List.mem_map_of_mem hr)).1
  constructor
  · have hapart : inside.removals = d.removals ++ _ := (removals_read _ _ _ _).trans
      (Removal.foldl_joinBack_apart (fun r hr => Nat.lt_succ_of_le (hd r hr)) hlater)
    rw [hapart, List.take_left]
  · have hmarked : inside.scaffold = d.scaffold ++ [.opening kind] ++ Scaffold.ofSegments row :=
      scaffold_read _ _ _ _
    rw [hmarked, List.append_assoc, List.take_left]

mutual

/-- **The walk notes what the survey says.** -/
theorem walk_eq_read (hs : ∀ n, s.changes n = false) {position : Nat} {d : Detaching}
    (hd : d.Before position) (n : Node) (hn : n.Sized) (hc : Node.AllSized n.children) :
    walk settings s position d n = read settings position d (survey s n) := by
  cases n with
  | leaf tag text =>
    unfold walk survey
    split <;> rfl
  | branch tag kind children =>
    have hspan := Node.span_branch hn hc
    unfold walk survey
    split
    · rfl
    · rw [hs, if_neg Bool.false_ne_true]
      have hmarked : (d.mark (.opening kind)).Before (position + 1) :=
        hd.weaken (Nat.le_succ position)
      have hinside : walkAmong settings s (position + 1) (d.mark (.opening kind)) children =
          read settings (position + 1) (d.mark (.opening kind)) (surveyAmong s children) :=
        walkAmong_eq_read hs hmarked children hc
      have hlength : (read settings (position + 1) (d.mark (.opening kind))
          (surveyAmong s children)).scaffold.length =
            d.scaffold.length + 1 + (Scaffold.ofSegments (surveyAmong s children)).length := by
        rw [scaffold_read, List.length_append]
        simp [mark]
      simp only [hinside]
      cases hk : (surveyAmong s children).any isKept with
      | true =>
        have hpos := length_scaffold_pos hk
        rw [if_neg (by omega), if_pos rfl, List.cons_append, read, read_append]
        rfl
      | false =>
        have hnil := (any_isKept_eq_false_iff s children).mp hk
        obtain ⟨hremovals, hmarks⟩ :=
          take_back settings hd kind (surveyAmong s children)
        rw [hnil, List.length_nil, Nat.add_zero] at hlength
        have hstop : position + 1 + Node.spanAmong children + 1 =
            position + (Node.branch tag kind children).span := by omega
        rw [if_pos hlength, hremovals, hmarks, if_neg Bool.false_ne_true, read, if_neg (by omega),
          hstop]
        rfl

theorem walkAmong_eq_read (hs : ∀ n, s.changes n = false) {position : Nat} {d : Detaching}
    (hd : d.Before position) (ns : List Node) (hns : Node.AllSized ns) :
    walkAmong settings s position d ns = read settings position d (surveyAmong s ns) := by
  cases ns with
  | nil => rfl
  | cons n ns =>
    obtain ⟨hn, hc⟩ := hns.child List.mem_cons_self
    have hwidth := totalWidth_survey s hns
    have hlater := hd.read settings (survey s n)
    rw [hwidth] at hlater
    rw [walkAmong, surveyAmong, read_append, walk_eq_read hs hd n hn hc, hwidth]
    exact walkAmong_eq_read hs hlater ns hns.tail

end

theorem walkRoot_eq_read (hs : ∀ n, s.changes n = false) {root : Node}
    (hroot : Node.AllSized [root]) :
    walkRoot settings s root = read settings 0 {} (surveyRoot s root) := by
  have hstart : Before {} 0 := List.forall_mem_nil _
  obtain ⟨hsized, hchildren⟩ := hroot.child List.mem_cons_self
  cases hk : s.keeps root with
  | true =>
    simp only [walkRoot, surveyRoot, hk, ↓reduceIte]
    rfl
  | false =>
    cases root with
    | leaf tag text =>
      have hwalk := walk_eq_read settings hs hstart _ hsized hchildren
      simp only [survey, hk, Bool.false_eq_true, ↓reduceIte] at hwalk
      simp only [walkRoot, surveyRoot, hk, Bool.false_eq_true, ↓reduceIte]
      exact hwalk
    | branch tag kind children =>
      rw [surveyRoot_branch s tag kind children hk]
      simp only [walkRoot, hk, Bool.false_eq_true, ↓reduceIte]
      exact walkAmong_eq_read settings hs hstart children hchildren

/-- A root walked comes out as its removals and its scaffold. -/
theorem walkRoot_eq (hs : ∀ n, s.changes n = false) {root : Node}
    (hroot : Node.AllSized [root]) :
    walkRoot settings s root = ⟨Removal.ofSegments settings 0 (surveyRoot s root),
      Scaffold.ofSegments (surveyRoot s root)⟩ :=
  (walkRoot_eq_read settings hs hroot).trans (read_start settings _)

end Detaching

/-- **The walk over an old tree comes out as its survey does.** -/
theorem detach_eq_walk {f : Forest} {uprooted : Handle → Bool} {h : Handle} {root : Node}
    (hr : f.node h = .ok root) (hs : Node.AllSized [root]) :
    let walked := Detaching.walkRoot f.settings (.standing root f.claimedAt uprooted) root
    f.detach uprooted h = .ok (walked.removals, walked.scaffold) := by
  intro walked
  have hwalked : walked = ⟨_, _⟩ := Detaching.walkRoot_eq f.settings (fun _ => rfl) hs
  rw [hwalked, Forest.detach, hr]
  rfl

/-! ## The walk over a new tree -/

/-- What has been noted so far, with the run that may have begun. -/
structure Extracting where
  began : Option Nat := none
  additions : List Extent := []
  scaffold : Scaffold := []
  deriving DecidableEq, Repr

namespace Extracting

def mark (x : Extracting) (p : Piece) : Extracting := { x with scaffold := x.scaffold ++ [p] }

/-- Begins a run unless one has begun. -/
def begin (x : Extracting) (position : Nat) : Extracting :=
  { x with began := some (x.began.getD position) }

/-- Ends the run, if one has begun. -/
def close (x : Extracting) (stop : Nat) : Extracting :=
  { x with began := none, additions := x.additions ++ Addition.close x.began stop }

mutual

/-- Walks a node that starts at a position. -/
def walk (s : Sieve) (position : Nat) (x : Extracting) : Node → Extracting
  | .leaf tag text =>
    if s.keeps (.leaf tag text) then (x.close position).mark (.kept tag.handle)
    else x.begin position
  | .branch tag kind children =>
    if s.keeps (.branch tag kind children) then (x.close position).mark (.kept tag.handle)
    else if s.changes (.branch tag kind children) then x.begin position
    else
      let inside := walkAmong s (position + 1) ((x.close position).mark (.opening kind)) children
      if inside.scaffold.length = x.scaffold.length + 1 then
        begin ⟨x.began, inside.additions.take x.additions.length,
          inside.scaffold.take x.scaffold.length⟩ position
      else (inside.close (position + 1 + Node.spanAmong children)).mark (.closing kind)

def walkAmong (s : Sieve) (position : Nat) (x : Extracting) : List Node → Extracting
  | [] => x
  | n :: ns => walkAmong s (position + n.span) (walk s position x n) ns

end

/-- The boundaries of the root have no positions, and it is not noted as a branch. -/
def walkRoot (s : Sieve) (root : Node) : Extracting :=
  let walked := if s.keeps root then (close {} 0).mark (.kept root.handle)
    else match root with
      | .leaf _ _ => begin {} 0
      | .branch _ _ children => walkAmong s 0 {} children
  walked.close root.innerSpan

/-- Notes a row of segments that starts at a position. -/
def read (position : Nat) (x : Extracting) : List Segment → Extracting
  | [] => x
  | .changed n :: rest => read (position + n.span) (x.begin position) rest
  | .kept n :: rest => read (position + n.span) ((x.close position).mark (.kept n.handle)) rest
  | .opening kind :: rest => read (position + 1) ((x.close position).mark (.opening kind)) rest
  | .closing kind :: rest => read (position + 1) ((x.close position).mark (.closing kind)) rest

variable {s : Sieve}

theorem read_append (position : Nat) (x : Extracting) (a b : List Segment) :
    read position x (a ++ b) = read (position + totalWidth a) (read position x a) b := by
  induction a generalizing position x with
  | nil => rfl
  | cons s a ih => cases s <;> simp only [List.cons_append, read, ih, totalWidth_cons, width,
      Nat.add_assoc]

theorem scaffold_read (position : Nat) (x : Extracting) (row : List Segment) :
    (read position x row).scaffold = x.scaffold ++ Scaffold.ofSegments row := by
  induction row generalizing position x with
  | nil => simp [read, Scaffold.ofSegments]
  | cons s row ih =>
    cases s <;>
      simp [read, ih, begin, close, mark, Scaffold.ofSegments, piece?, List.filterMap_cons]

/-- When the last run is closed, the additions are those of the row behind the ones before it. -/
theorem additions_read_close (position : Nat) (x : Extracting) (row : List Segment) :
    ((read position x row).close (position + totalWidth row)).additions =
      x.additions ++ Addition.ofSegments x.began position row := by
  induction row generalizing position x with
  | nil => rfl
  | cons s row ih =>
    rw [totalWidth_cons, ← Nat.add_assoc]
    cases s with
    | changed n => exact ih _ _
    | _ =>
      refine (ih _ _).trans ?_
      simp only [mark, close, Addition.ofSegments, List.append_assoc]
      rfl

/-- A walk only adds to the additions. -/
theorem additions_prefix_read (position : Nat) (x : Extracting) (row : List Segment) :
    x.additions <+: (read position x row).additions := by
  induction row generalizing position x with
  | nil => exact List.prefix_refl _
  | cons s row ih =>
    cases s with
    | changed n => exact ih (position + n.span) (x.begin position)
    | opening kind =>
      exact (List.prefix_append _ _).trans (ih _ ((x.close position).mark (.opening kind)))
    | closing kind =>
      exact (List.prefix_append _ _).trans (ih _ ((x.close position).mark (.closing kind)))
    | kept n =>
      exact (List.prefix_append _ _).trans (ih _ ((x.close position).mark (.kept n.handle)))

/-- What was noted in a branch can be taken back, and the run before it goes on. -/
theorem take_back (position : Nat) (x : Extracting) (kind : String) (row : List Segment) :
    let inside := read (position + 1) ((x.close position).mark (.opening kind)) row
    inside.additions.take x.additions.length = x.additions ∧
      inside.scaffold.take x.scaffold.length = x.scaffold := by
  intro inside
  have hprefix : x.additions <+: inside.additions :=
    (List.prefix_append _ _).trans
      (additions_prefix_read (position + 1) ((x.close position).mark (.opening kind)) row)
  have hmarked : inside.scaffold = x.scaffold ++ [.opening kind] ++ Scaffold.ofSegments row :=
    scaffold_read _ _ _
  rw [hmarked, List.append_assoc, List.take_left]
  exact ⟨List.prefix_iff_eq_take.mp hprefix |>.symm, rfl⟩

mutual

/-- **The walk notes what the survey says.** -/
theorem walk_eq_read (position : Nat) (x : Extracting) (n : Node) (hn : n.Sized)
    (hc : Node.AllSized n.children) : walk s position x n = read position x (survey s n) := by
  cases n with
  | leaf tag text =>
    unfold walk survey
    split <;> rfl
  | branch tag kind children =>
    unfold walk survey
    split
    · rfl
    · split
      · rfl
      · have hinside := walkAmong_eq_read (position + 1) ((x.close position).mark (.opening kind))
          children hc
        have hlength : (read (position + 1) ((x.close position).mark (.opening kind))
            (surveyAmong s children)).scaffold.length =
              x.scaffold.length + 1 + (Scaffold.ofSegments (surveyAmong s children)).length := by
          rw [scaffold_read, List.length_append]
          simp [mark, close]
        simp only [hinside]
        cases hk : (surveyAmong s children).any isKept with
        | true =>
          have hpos := length_scaffold_pos hk
          have hwidth : totalWidth (surveyAmong s children) = Node.spanAmong children :=
            Node.totalWidth_surveyAmong s hc
          rw [if_neg (by omega), if_pos rfl, List.cons_append, read, read_append, hwidth]
          rfl
        | false =>
          have hnil := (any_isKept_eq_false_iff s children).mp hk
          obtain ⟨hadditions, hmarks⟩ := take_back position x kind (surveyAmong s children)
          rw [hnil, List.length_nil, Nat.add_zero] at hlength
          rw [if_pos hlength, hadditions, hmarks, if_neg Bool.false_ne_true]
          rfl

theorem walkAmong_eq_read (position : Nat) (x : Extracting) (ns : List Node)
    (hns : Node.AllSized ns) : walkAmong s position x ns = read position x (surveyAmong s ns) := by
  cases ns with
  | nil => rfl
  | cons n ns =>
    obtain ⟨hn, hc⟩ := hns.child List.mem_cons_self
    rw [walkAmong, surveyAmong, read_append, walk_eq_read position x n hn hc,
      totalWidth_survey s hns]
    exact walkAmong_eq_read _ _ ns hns.tail

end

/-- A root walked comes out as its additions and its scaffold, with no run left open. -/
theorem walkRoot_eq {root : Node} (hroot : Node.AllSized [root])
    (hnew : s.keeps root = false) :
    walkRoot s root = ⟨none, Addition.ofSegments none 0 (surveyRoot s root),
      Scaffold.ofSegments (surveyRoot s root)⟩ := by
  have hread : walkRoot s root = (read 0 {} (surveyRoot s root)).close
      (0 + totalWidth (surveyRoot s root)) := by
    obtain ⟨-, hchildren⟩ := hroot.child List.mem_cons_self
    cases root with
    | leaf tag text =>
      simp only [surveyRoot, walkRoot, hnew, Bool.false_eq_true, ↓reduceIte, totalWidth_cons,
        totalWidth_nil, Nat.zero_add, Nat.add_zero]
      rfl
    | branch tag kind children =>
      have hwidth : totalWidth (surveyAmong s children) = _ := totalWidth_below s hroot rfl
      rw [surveyRoot_branch s tag kind children hnew, hwidth, Nat.zero_add]
      simp only [walkRoot, hnew, Bool.false_eq_true, ↓reduceIte,
        walkAmong_eq_read 0 {} children hchildren]
  have hadditions := additions_read_close 0 {} (surveyRoot s root)
  have hscaffold := scaffold_read 0 {} (surveyRoot s root)
  rw [List.nil_append] at hadditions hscaffold
  rw [hread, ← hadditions, ← hscaffold]
  rfl

end Extracting

/-- A root is of its own generation, so it is never reused. -/
theorem Sieve.reused_root (root : Node) (uprooted : Handle → Bool) :
    (Sieve.reused root uprooted).keeps root = false := by
  simp [Sieve.reused]

/-- **The walk over a new tree comes out as its survey does.** -/
theorem extract_eq_walk {f : Forest} {uprooted : Handle → Bool} {h : Handle} {root : Node}
    (hr : f.node h = .ok root) (hs : Node.AllSized [root]) :
    let walked := Extracting.walkRoot (.reused root uprooted) root
    f.extract uprooted h = .ok (walked.additions, walked.scaffold) := by
  intro walked
  have hwalked : walked = ⟨_, _, _⟩ := Extracting.walkRoot_eq hs (Sieve.reused_root root uprooted)
  rw [hwalked, Forest.extract, hr]
  rfl

end TreePatch
