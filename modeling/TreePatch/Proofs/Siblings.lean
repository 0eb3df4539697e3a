import TreePatch.Proofs.Paths

/-! Where the segments of a survey come from. A survey looks into a branch just if it is not kept
itself but something in it is (`survey_fate`). So segments side by side with no boundary among
them are those of siblings side by side (`abreast_of_stretch`). -/

namespace TreePatch

open Segment Node

theorem Segment.node?_isSome_of_isChanged {g : Segment} (h : g.isChanged = true) :
    g.node?.isSome := by
  cases g with
  | kept n => rfl
  | changed n => rfl
  | _ => cases h

/-- A boundary has a width. -/
theorem Segment.node?_isSome_of_width {g : Segment} (h : g.width = 0) : g.node?.isSome := by
  cases g with
  | kept n => rfl
  | changed n => rfl
  | _ => cases h

/-- Nothing in the tree is kept. -/
def Node.Bare (s : Sieve) (n : Node) : Prop := ∀ m ∈ n.nodes, s.keeps m = false

/-- What is not kept and changes as a whole has nothing in it that is kept. -/
def Sieve.Spares (s : Sieve) (ns : List Node) : Prop :=
  ∀ n ∈ nodesAmong ns, s.keeps n = false → s.changes n = true → n.Bare s

namespace Sieve.Spares

variable {s : Sieve} {n : Node} {ns : List Node}

theorem head (h : s.Spares (n :: ns)) : s.Spares [n] := by
  intro m hm
  rw [nodesAmong, nodesAmong, List.append_nil] at hm
  exact h m (List.mem_append_left _ hm)

theorem tail (h : s.Spares (n :: ns)) : s.Spares ns :=
  fun m hm => h m (List.mem_append_right _ hm)

theorem of_mem (h : s.Spares ns) (hn : n ∈ ns) : s.Spares [n] := by
  intro m hm
  rw [nodesAmong, nodesAmong, List.append_nil] at hm
  exact h m (mem_nodesAmong.mpr ⟨n, hn, hm⟩)

theorem below (h : s.Spares [n]) : s.Spares n.children :=
  fun m hm => h m (List.mem_append_left _ (mem_nodes_of_below hm))

end Sieve.Spares

/-! ## What becomes of a node -/

mutual

/-- What is kept is not lost from the survey. -/
theorem any_isKept_survey {s : Sieve} (n : Node) {m : Node} (sp : s.Spares [n]) (hm : m ∈ n.nodes)
    (hk : s.keeps m = true) : (survey s n).any isKept = true := by
  cases hself : s.keeps n with
  | true =>
    rw [survey_of_keeps hself]
    rfl
  | false =>
    cases n with
    | leaf tag text =>
      obtain rfl := List.mem_singleton.mp hm
      rw [hk] at hself
      cases hself
    | branch tag kind children =>
      cases hchanges : s.changes (branch tag kind children) with
      | true =>
        have hbare := sp _ (List.mem_append_left _ (mem_nodes_self _)) hself hchanges m hm
        rw [hk] at hbare
        cases hbare
      | false =>
        have hbelow : m ∈ nodesAmong children := by
          rcases List.mem_cons.mp hm with rfl | hm
          · rw [hk] at hself
            cases hself
          · exact hm
        have hany := any_isKept_surveyAmong children sp.below hbelow hk
        unfold survey
        simp only [hself, hchanges, hany, Bool.false_eq_true, ↓reduceIte]
        simp [hany]

theorem any_isKept_surveyAmong {s : Sieve} (ns : List Node) {m : Node} (sp : s.Spares ns)
    (hm : m ∈ nodesAmong ns) (hk : s.keeps m = true) : (surveyAmong s ns).any isKept = true := by
  cases ns with
  | nil => cases hm
  | cons n ns =>
    rw [surveyAmong, List.any_append, Bool.or_eq_true]
    rcases List.mem_append.mp hm with hm | hm
    · exact Or.inl (any_isKept_survey n sp.head hm hk)
    · exact Or.inr (any_isKept_surveyAmong ns sp.tail hm hk)

end

/-- What can become of a node. It is one segment if it is kept or nothing in it is. -/
inductive Fate (s : Sieve) (n : Node) : Prop where
  | kept : s.keeps n = true → survey s n = [.kept n] → Fate s n
  | changed : n.Bare s → survey s n = [.changed n] → Fate s n
  | opened (kind : String) : s.keeps n = false → n.layer.isLeaf = false →
      (∃ m ∈ nodesAmong n.children, s.keeps m = true) →
      survey s n = .opening kind :: (surveyAmong s n.children ++ [.closing kind]) → Fate s n

theorem survey_fate {s : Sieve} {n : Node} (sp : s.Spares [n]) : Fate s n := by
  cases hself : s.keeps n with
  | true => exact .kept hself (survey_of_keeps hself)
  | false =>
    cases n with
    | leaf tag text =>
      refine .changed ?_ (by simp [survey, hself])
      intro m hm
      obtain rfl := List.mem_singleton.mp hm
      exact hself
    | branch tag kind children =>
      cases hchanges : s.changes (branch tag kind children) with
      | true =>
        refine .changed ?_ (by simp [survey, hself, hchanges])
        exact sp _ (List.mem_append_left _ (mem_nodes_self _)) hself hchanges
      | false =>
        cases hany : (surveyAmong s children).any isKept with
        | true =>
          obtain ⟨seg, hseg, hkept⟩ := List.any_eq_true.mp hany
          refine .opened kind hself rfl ?_ (by simp [survey, hself, hchanges, hany, Node.children])
          cases seg with
          | kept m =>
            exact ⟨m, node_mem_surveyAmong s children m _ hseg rfl,
              (kept_mem_surveyAmong s children m hseg).2⟩
          | _ => cases hkept
        | false =>
          refine .changed ?_ (by simp [survey, hself, hchanges, hany])
          intro m hm
          rcases List.mem_cons.mp hm with rfl | hm
          · exact hself
          · rw [Bool.eq_false_iff]
            intro hk
            rw [any_isKept_surveyAmong children sp.below hm hk] at hany
            cases hany

/-- The one segment of a node that is not looked into. -/
def Sieve.segment (s : Sieve) (n : Node) : Segment := if s.keeps n then .kept n else .changed n

/-- The node is kept or nothing in it is. -/
def Node.Whole (s : Sieve) (n : Node) : Prop := s.keeps n = true ∨ n.Bare s

section Whole

variable {s : Sieve} {n : Node} {ns : List Node}

theorem Sieve.segment_of_keeps (h : s.keeps n = true) : s.segment n = .kept n := if_pos h

theorem Sieve.segment_of_bare (h : n.Bare s) : s.segment n = .changed n :=
  if_neg (by rw [h n (mem_nodes_self n)]; exact Bool.false_ne_true)

@[simp] theorem Sieve.width_segment (s : Sieve) (n : Node) : (s.segment n).width = n.span := by
  unfold Sieve.segment
  split <;> rfl

@[simp] theorem Sieve.isChanged_segment (s : Sieve) (n : Node) :
    (s.segment n).isChanged = !s.keeps n := by
  unfold Sieve.segment
  cases s.keeps n <;> rfl

theorem Sieve.eq_of_segment_eq_changed {m : Node} (h : .changed n = s.segment m) :
    m = n ∧ s.keeps m = false := by
  unfold Sieve.segment at h
  split at h
  · cases h
  · rename_i hk
    cases h
    exact ⟨rfl, Bool.not_eq_true _ ▸ hk⟩

theorem Node.Whole.bare (h : n.Whole s) (hk : s.keeps n = false) : n.Bare s :=
  h.resolve_left (by rw [hk]; exact Bool.false_ne_true)

theorem Sieve.totalWidth_map_segment (s : Sieve) (ns : List Node) :
    totalWidth (ns.map s.segment) = spanAmong ns := by
  induction ns with
  | nil => rfl
  | cons n ns ih =>
    rw [List.map_cons, totalWidth_cons, s.width_segment, ih]
    rfl

/-- A node that is looked into begins with a boundary. -/
theorem survey_of_head (sp : s.Spares [n]) {g : Segment} {tail : List Segment}
    (h : survey s n = g :: tail) (hg : g.node?.isSome) :
    n.Whole s ∧ g = s.segment n ∧ tail = [] := by
  rcases survey_fate sp with ⟨hk, hrow⟩ | ⟨hb, hrow⟩ | ⟨kind, -, -, -, hrow⟩
  · obtain ⟨rfl, rfl⟩ := List.cons.inj (h.symm.trans hrow)
    exact ⟨Or.inl hk, (Sieve.segment_of_keeps hk).symm, rfl⟩
  · obtain ⟨rfl, rfl⟩ := List.cons.inj (h.symm.trans hrow)
    exact ⟨Or.inr hb, (Sieve.segment_of_bare hb).symm, rfl⟩
  · obtain ⟨rfl, -⟩ := List.cons.inj (h.symm.trans hrow)
    cases hg

end Whole

/-! ## Rows of siblings -/

namespace Node

/-- The siblings a path leads to, and where the first of them starts: the row itself or the
children of a node in it. -/
def rowAmong : Nat → List Node → List Nat → Option (List Node × Nat)
  | position, ns, [] => some (ns, position)
  | position, ns, i :: path => ns[i]?.bind fun n =>
      rowAmong (position + spanAmong (ns.take i) + 1) n.children path

theorem rowAmong_succ (position : Nat) (n : Node) (ns : List Node) (i : Nat) (path : List Nat) :
    rowAmong position (n :: ns) ((i + 1) :: path) =
      rowAmong (position + n.span) ns (i :: path) := by
  have hspan : spanAmong ((n :: ns).take (i + 1)) = n.span + spanAmong (ns.take i) := rfl
  simp only [rowAmong, List.getElem?_cons_succ, hspan, Nat.add_assoc]

/-- The siblings a path leads to are what it leads to with the number of one put behind. -/
theorem followAmong_snoc {position base j : Nat} {ns siblings : List Node} {n : Node}
    {path : List Nat} (hrow : rowAmong position ns path = some (siblings, base))
    (hn : siblings[j]? = some n) :
    followAmong position ns (path ++ [j]) = some (n, base + spanAmong (siblings.take j)) ∧
      onPathAmong ns (path ++ [j]) = onPathAmong ns path ++ [n] := by
  induction path generalizing position ns with
  | nil =>
    obtain ⟨rfl, rfl⟩ := Prod.mk.inj (Option.some.inj hrow)
    exact ⟨followAmong_cons_eq_some_iff.mpr ⟨n, hn, rfl⟩, onPathAmong_cons hn⟩
  | cons i path ih =>
    obtain ⟨c, hc, hbelow⟩ := Option.bind_eq_some_iff.mp hrow
    obtain ⟨hfollow, hpath⟩ := ih hbelow
    rw [List.cons_append, onPathAmong_cons hc, onPathAmong_cons hc, onPath_eq, onPath_eq, hpath]
    refine ⟨followAmong_cons_eq_some_iff.mpr ⟨c, hc, ?_⟩, rfl⟩
    cases path with
    | nil => exact hfollow
    | cons k path => exact hfollow

theorem nodesAmong_append (a b : List Node) :
    nodesAmong (a ++ b) = nodesAmong a ++ nodesAmong b := by
  induction a with
  | nil => rfl
  | cons n a ih => simp only [List.cons_append, nodesAmong, ih, List.append_assoc]

theorem mem_nodesAmong_of_row {position base : Nat} {ns siblings : List Node} {m : Node}
    {path : List Nat} (hrow : rowAmong position ns path = some (siblings, base))
    (hm : m ∈ nodesAmong siblings) : m ∈ nodesAmong ns := by
  induction path generalizing position ns with
  | nil =>
    obtain ⟨rfl, rfl⟩ := Prod.mk.inj (Option.some.inj hrow)
    exact hm
  | cons i path ih =>
    obtain ⟨c, hc, hbelow⟩ := Option.bind_eq_some_iff.mp hrow
    exact mem_nodesAmong.mpr ⟨c, List.mem_of_getElem? hc, mem_nodes_of_below (ih hbelow)⟩

/-- Siblings side by side take up the extent. -/
def Abreast (position : Nat) (ns : List Node) (path : List Nat) (front run back : List Node)
    (e : Extent) : Prop :=
  ∃ base, rowAmong position ns path = some (front ++ run ++ back, base) ∧
    e = ⟨base + spanAmong front, base + spanAmong front + spanAmong run⟩

theorem Abreast.mem_nodesAmong {position : Nat} {ns front run back : List Node} {path : List Nat}
    {e : Extent} {m : Node} (h : Abreast position ns path front run back e) (hm : m ∈ run) :
    m ∈ nodesAmong ns := by
  obtain ⟨base, hrow, -⟩ := h
  exact mem_nodesAmong_of_row hrow (mem_nodesAmong_of_mem
    (List.mem_append_left _ (List.mem_append_right _ hm)))

theorem Abreast.split {position start stop : Nat} {ns front a b back : List Node} {path : List Nat}
    (h : Abreast position ns path front (a ++ b) back ⟨start, stop⟩) :
    Abreast position ns path front a (b ++ back) ⟨start, start + spanAmong a⟩ ∧
      Abreast position ns path (front ++ a) b back ⟨start + spanAmong a, stop⟩ := by
  obtain ⟨base, hrow, he⟩ := h
  obtain ⟨rfl, rfl⟩ := Extent.mk.inj he
  have hfirst : front ++ (a ++ b) ++ back = front ++ a ++ (b ++ back) := by simp
  have hsecond : front ++ (a ++ b) ++ back = front ++ a ++ b ++ back := by simp
  refine ⟨⟨base, hfirst ▸ hrow, rfl⟩, base, hsecond ▸ hrow, ?_⟩
  rw [spanAmong_append, spanAmong_append, ← Nat.add_assoc, ← Nat.add_assoc]

end Node

/-! ## The siblings of a stretch -/

/-- A segment of a survey is that of a node among its siblings: the path leads to them through
nodes that are not kept, each with something kept in it, and behind the segment come those of
the siblings on the right. -/
structure Seat (s : Sieve) (position : Nat) (ns : List Node) (offset : Nat) (tail : List Segment)
    (path : List Nat) (front : List Node) (n : Node) (back : List Node) : Prop where
  whole : n.Whole s
  row : ∃ base, rowAmong position ns path = some (front ++ n :: back, base) ∧
    base + spanAmong front = position + offset
  clear : ∀ m ∈ onPathAmong ns path, s.keeps m = false
  mixed : path = [] ∨ ∃ m ∈ nodesAmong (front ++ n :: back), s.keeps m = true
  behind : ∃ rest, tail = surveyAmong s back ++ rest ∧ ∀ g ∈ rest.head?, g.node? = none

namespace Seat

variable {s : Sieve} {position offset : Nat} {ns front back : List Node} {n c : Node}
  {tail : List Segment} {path : List Nat}

/-- The same seat with another tree in front of the row. -/
theorem later (h : Seat s (position + c.span) ns offset tail path front n back) :
    ∃ path front, Seat s position (c :: ns) (c.span + offset) tail path front n back := by
  obtain ⟨base, hrow, hbase⟩ := h.row
  cases path with
  | nil =>
    obtain ⟨rfl, rfl⟩ := Prod.mk.inj (Option.some.inj hrow)
    have hspan : spanAmong (c :: front) = c.span + spanAmong front := rfl
    exact ⟨[], c :: front, h.whole, ⟨position, rfl, by omega⟩, List.forall_mem_nil _, Or.inl rfl,
      h.behind⟩
  | cons i path =>
    refine ⟨(i + 1) :: path, front, h.whole, ⟨base, ?_, by omega⟩, h.clear, Or.inr ?_, h.behind⟩
    · rw [rowAmong_succ, hrow]
    · exact h.mixed.resolve_left (List.cons_ne_nil i path)

/-- The same seat seen from outside the branch. -/
theorem outside {kind : String} (hkeeps : s.keeps c = false)
    (hkept : ∃ m ∈ nodesAmong c.children, s.keeps m = true)
    (h : Seat s (position + 1) c.children offset tail path front n back) :
    Seat s position (c :: ns) (1 + offset) (tail ++ .closing kind :: surveyAmong s ns)
      (0 :: path) front n back where
  whole := h.whole
  row := by
    obtain ⟨base, hrow, hbase⟩ := h.row
    exact ⟨base, hrow, by omega⟩
  clear := by
    rw [onPathAmong_cons rfl, onPath_eq]
    exact List.forall_mem_cons.mpr ⟨hkeeps, h.clear⟩
  mixed := by
    refine Or.inr ?_
    rcases h.mixed with rfl | hmixed
    · obtain ⟨base, hrow, -⟩ := h.row
      obtain ⟨hchildren, -⟩ := Prod.mk.inj (Option.some.inj hrow)
      rwa [← hchildren]
    · exact hmixed
  behind := by
    obtain ⟨rest, rfl, hrest⟩ := h.behind
    refine ⟨rest ++ .closing kind :: surveyAmong s ns, List.append_assoc _ _ _, ?_⟩
    cases rest with
    | nil => simp [node?]
    | cons g rest => exact hrest

end Seat

theorem totalWidth_survey {n : Node} {ns : List Node} (s : Sieve) (hs : AllSized (n :: ns)) :
    totalWidth (survey s n) = n.span := by
  have hall := totalWidth_surveyAmong s hs
  have hrest := totalWidth_surveyAmong s hs.tail
  have hspan : spanAmong (n :: ns) = n.span + spanAmong ns := rfl
  rw [surveyAmong, totalWidth_append] at hall
  omega

/-- The row below a root takes up all of its content. -/
theorem totalWidth_below {root : Node} (s : Sieve) (hs : AllSized [root])
    (branch : root.layer.isLeaf = false) :
    totalWidth (surveyAmong s root.children) = root.innerSpan := by
  obtain ⟨hroot, hchildren⟩ := hs.child List.mem_cons_self
  rw [totalWidth_surveyAmong s hchildren, innerSpan_of_branch hroot hchildren branch]

mutual

/-- Every segment but a boundary has its seat. -/
theorem exists_seat {s : Sieve} {before tail : List Segment} {g : Segment} (position : Nat)
    (ns : List Node) (sp : s.Spares ns) (hs : AllSized ns)
    (h : surveyAmong s ns = before ++ g :: tail) (hg : g.node?.isSome) :
    ∃ path front n back, g = s.segment n ∧
      Seat s position ns (totalWidth before) tail path front n back := by
  cases ns with
  | nil => cases before <;> cases h
  | cons c ns =>
    rw [surveyAmong] at h
    rcases append_eq_append_cons h with ⟨rest, hc, rfl⟩ | ⟨front, rfl, hrest⟩
    · cases before with
      | nil =>
        obtain ⟨hwhole, rfl, rfl⟩ := survey_of_head sp.head hc hg
        exact ⟨[], [], c, ns, rfl, hwhole, ⟨position, rfl, rfl⟩, List.forall_mem_nil _,
          Or.inl rfl, [], (List.append_nil _).symm, by simp⟩
      | cons b before =>
        -- there is something in front of the segment, so the node is looked into
        rcases survey_fate sp.head with ⟨-, hrow⟩ | ⟨-, hrow⟩ | ⟨kind, hkeeps, -, hkept, hrow⟩
        · rw [hrow] at hc
          cases before <;> cases hc
        · rw [hrow] at hc
          cases before <;> cases hc
        · obtain ⟨rfl, hinside⟩ := List.cons.inj (hrow.symm.trans hc)
          rcases append_eq_append_cons hinside with ⟨inner, hinner, rfl⟩ | ⟨front, -, hclosing⟩
          · obtain ⟨path, front, n, back, hsegment, hseat⟩ :=
              exists_seat_below (position + 1) c sp.head.below
                (hs.child List.mem_cons_self).2 hinner hg
            refine ⟨0 :: path, front, n, back, hsegment, ?_⟩
            rw [List.append_assoc]
            exact hseat.outside hkeeps hkept
          · cases front with
            | nil =>
              obtain ⟨rfl, -⟩ := List.cons.inj hclosing
              cases hg
            | cons f front => cases front <;> cases hclosing
    · obtain ⟨path, back, n, behind, hsegment, hseat⟩ :=
        exists_seat (position + c.span) ns sp.tail hs.tail hrest hg
      obtain ⟨path, back, hlater⟩ := hseat.later
      refine ⟨path, back, n, behind, hsegment, ?_⟩
      rwa [totalWidth_append, totalWidth_survey s hs]

theorem exists_seat_below {s : Sieve} {before tail : List Segment} {g : Segment} (position : Nat)
    (c : Node) (sp : s.Spares c.children) (hs : AllSized c.children)
    (h : surveyAmong s c.children = before ++ g :: tail) (hg : g.node?.isSome) :
    ∃ path front n back, g = s.segment n ∧
      Seat s position c.children (totalWidth before) tail path front n back := by
  cases c with
  | leaf tag text => cases before <;> cases h
  | branch tag kind children => exact exists_seat position children sp hs h hg

end

/-- What has no boundary in it and starts where siblings do is of siblings side by side. -/
theorem run_of_front {s : Sieve} {back : List Node} {rest gone after : List Segment}
    (sp : s.Spares back) (h : surveyAmong s back ++ rest = gone ++ after)
    (hrest : ∀ g ∈ rest.head?, g.node? = none) (plain : ∀ g ∈ gone, g.node?.isSome) :
    ∃ run later, back = run ++ later ∧ gone = run.map s.segment ∧ ∀ m ∈ run, m.Whole s := by
  induction back generalizing gone with
  | nil =>
    cases gone with
    | nil => exact ⟨[], [], rfl, rfl, List.forall_mem_nil _⟩
    | cons g gone =>
      obtain rfl : rest = g :: (gone ++ after) := h
      have hsome := plain g List.mem_cons_self
      rw [hrest g rfl] at hsome
      cases hsome
  | cons c back ih =>
    cases gone with
    | nil => exact ⟨[], c :: back, rfl, rfl, List.forall_mem_nil _⟩
    | cons g gone =>
      rw [surveyAmong, List.append_assoc] at h
      have hone : ∃ tail, survey s c = g :: tail := by
        rcases List.append_eq_cons_iff.mp h with ⟨hnil, -⟩ | ⟨tail, hc, -⟩
        · rcases survey_fate sp.head with ⟨-, hrow⟩ | ⟨-, hrow⟩ | ⟨kind, -, -, -, hrow⟩ <;>
            rw [hrow] at hnil <;> cases hnil
        · exact ⟨tail, hc⟩
      obtain ⟨tail, hc⟩ := hone
      obtain ⟨hwhole, hsegment, rfl⟩ := survey_of_head sp.head hc (plain g List.mem_cons_self)
      rw [hc] at h
      obtain ⟨run, later, rfl, hgone, hall⟩ := ih sp.tail (List.cons.inj h).2
        (List.forall_mem_cons.mp plain).2
      exact ⟨c :: run, later, rfl, by rw [hsegment, hgone, List.map_cons],
        List.forall_mem_cons.mpr ⟨hwhole, hall⟩⟩

/-- **A stretch of a survey without boundaries is of siblings side by side**, each kept or with
nothing kept in it. The path to them leads through nodes that are not kept but have something
kept in them. -/
theorem abreast_of_stretch {s : Sieve} {ns : List Node} {before gone after : List Segment}
    (position : Nat) (sp : s.Spares ns) (hs : AllSized ns)
    (h : surveyAmong s ns = before ++ gone ++ after) (hne : gone ≠ [])
    (plain : ∀ g ∈ gone, g.node?.isSome) :
    ∃ path front run back, gone = run.map s.segment ∧ (∀ m ∈ run, m.Whole s) ∧
      Abreast position ns path front run back
        ⟨position + totalWidth before, position + totalWidth before + totalWidth gone⟩ ∧
      (∀ m ∈ onPathAmong ns path, s.keeps m = false) ∧
      (path = [] ∨ ∃ m ∈ nodesAmong (front ++ run ++ back), s.keeps m = true) := by
  cases gone with
  | nil => exact absurd rfl hne
  | cons g gone =>
    obtain ⟨hg, hgone⟩ := List.forall_mem_cons.mp plain
    rw [List.append_assoc] at h
    obtain ⟨path, front, n, back, rfl, hseat⟩ := exists_seat position ns sp hs h hg
    obtain ⟨base, hrow, hbase⟩ := hseat.row
    obtain ⟨rest, hbehind, hrest⟩ := hseat.behind
    have hspares : s.Spares back := by
      intro m hm
      refine sp m (mem_nodesAmong_of_row hrow ?_)
      rw [nodesAmong_append, nodesAmong]
      exact List.mem_append_right _ (List.mem_append_right _ hm)
    obtain ⟨run, later, rfl, rfl, hall⟩ := run_of_front hspares hbehind.symm hrest hgone
    have hsplit : front ++ n :: (run ++ later) = front ++ (n :: run) ++ later := by simp
    refine ⟨path, front, n :: run, later, rfl, List.forall_mem_cons.mpr ⟨hseat.whole, hall⟩, ?_,
      hseat.clear, hsplit ▸ hseat.mixed⟩
    refine ⟨base, hsplit ▸ hrow, ?_⟩
    rw [hbase, ← s.totalWidth_map_segment, List.map_cons]

end TreePatch
