import TreePatch.Position
import TreePatch.Proofs.Saves
import TreePatch.Proofs.Stamps

/-! What a handle stands for. It was issued for one node by one forest, in one life of that
forest, and the arena number tells which. So any other forest refuses it, and so does its own once
cleared; until then, and as long as no restore goes behind its node, it stands for that node
(`handle_denotes`). -/

namespace TreePatch

namespace Forest

/-- Every operation on the handle fails for want of a node, and no branch over it is built. -/
structure Refuses (f : Forest) (h : Handle) : Prop where
  node : f.node h = .error (.unknownNode h)
  stamp : f.stamp h = .error (.unknownNode h)
  span : (f.node h).map Node.span = .error (.unknownNode h)
  content : (f.node h).map Node.content = .error (.unknownNode h)
  leafExtents : (f.node h).map Node.leafExtents = .error (.unknownNode h)
  firstChange : (f.node h).map Node.firstChange = .error (.unknownNode h)
  removals : f.removals h = .error (.unknownNode h)
  additions : f.additions h = .error (.unknownNode h)
  populate : Patch.populate f h = .error (.unknownNode h)
  previous : ∀ c, Patch.between f h c = .error (.unknownNode h)
  current : ∀ p old, f.node p = .ok old → Patch.between f p h = .error (.unknownNode h)
  push : ∀ t : Timeline, t.push f h = .error (.unknownNode h)
  branch : ∀ kind below, h ∈ below → ∃ front k back, below = front ++ k :: back ∧
    (∀ j ∈ front, ∃ n, f.node j = .ok n) ∧ (∀ n, f.node k ≠ .ok n) ∧
    f.branch kind below = .error (.unknownNode k)
  attempt : ∀ kind below, h ∈ below → f.attempt (.branch kind below) = f

/-- The handle stands for the node with all that is below it, and what the forest tells of it
is told by the node. -/
structure Denotes (f : Forest) (h : Handle) (n : Node) : Prop where
  node : f.node h = .ok n
  below : ∀ m ∈ n.nodes, f.node m.handle = .ok m
  stamp : ∃ claimed, f.stamp h = .ok ⟨n.born, n.tag.childBorn, claimed, n.oldest⟩
  span : (f.node h).map Node.span = .ok n.span
  content : (f.node h).map Node.content = .ok n.content
  leafExtents : (f.node h).map Node.leafExtents = .ok n.leafExtents
  firstChange : (f.node h).map Node.firstChange = .ok n.firstChange
  additions : f.additions h = .ok (Addition.ofSegments none 0 (surveyNew (fun _ => false) n))

variable {f : Forest} {h : Handle} {n : Node}

theorem refuses_of_find? (hf : f.find? h = none) : f.Refuses h := by
  have hnode : f.node h = .error (.unknownNode h) := (f.node_eq_error_iff h _).mpr ⟨hf, rfl⟩
  have hbranch (kind : String) (below : List Handle) (hh : h ∈ below) :
      ∃ e, f.branch kind below = .error e :=
    (f.exists_branch_error_iff kind below).mpr ⟨h, hh, (f.find?_eq_none_iff h).mp hf⟩
  constructor
  case node => exact hnode
  case stamp => rw [Forest.stamp, entry, hf]; rfl
  case span => rw [hnode]; rfl
  case content => rw [hnode]; rfl
  case leafExtents => rw [hnode]; rfl
  case firstChange => rw [hnode]; rfl
  case removals => simp [Forest.removals, hnode, bind, Except.bind]
  case additions => simp [Forest.additions, hnode, bind, Except.bind]
  case populate => simp [Patch.populate, hnode, bind, Except.bind]
  case previous => simp [Patch.between, hnode, bind, Except.bind]
  case current =>
    intro p old hp
    simp [Patch.between, hp, hnode, bind, Except.bind]
  case push => simp [Timeline.push, hnode, bind, Except.bind]
  case branch =>
    intro kind below hh
    obtain ⟨e, he⟩ := hbranch kind below hh
    obtain ⟨front, k, back, hbelow, hfront, hk, rfl⟩ := (f.branch_eq_error_iff kind below e).mp he
    exact ⟨front, k, back, hbelow, hfront, hk, he⟩
  case attempt =>
    intro kind below hh
    obtain ⟨e, he⟩ := hbranch kind below hh
    rw [Forest.attempt, show f.build (.branch kind below) = .error e from he]

theorem Sound.denotes (hf : f.Sound) (hn : f.node h = .ok n) : f.Denotes h n := by
  obtain ⟨e, he, rfl⟩ := (node_eq_ok_iff f h n).mp hn
  constructor
  case node => exact hn
  case below => exact hf.held hn
  case stamp => exact ⟨e.claimed, (stamp_eq_ok_iff f h _).mpr ⟨e, he, rfl⟩⟩
  case span => rw [hn]; rfl
  case content => rw [hn]; rfl
  case leafExtents => rw [hn]; rfl
  case firstChange => rw [hn]; rfl
  case additions => simp [Forest.additions, hn, bind, Except.bind, pure, Except.pure]

end Forest

/-- Of two ways to split a list, what the later one singles out is in the front of the earlier. -/
theorem mem_of_append_cons_eq {α : Type} {front back front' back' : List α} {x y : α}
    (he : front ++ x :: back = front' ++ y :: back') (hlt : back'.length < back.length) :
    x ∈ front' := by
  rcases List.append_eq_append_iff.mp he with ⟨between, rfl, hrest⟩ | ⟨between, rfl, hrest⟩
  · cases between with
    | nil =>
      obtain ⟨-, rfl⟩ := List.cons.inj hrest
      exact absurd hlt (Nat.lt_irrefl _)
    | cons z between =>
      obtain ⟨rfl, -⟩ := List.cons.inj hrest
      exact List.mem_append_right _ List.mem_cons_self
  · have hlength := congrArg List.length hrest
    simp only [List.length_append, List.length_cons] at hlength
    omega

namespace Workspace

/-- What has been done to forests side by side, as far as it matters to handles. -/
inductive Event where
  /-- A forest has issued a handle for a new node. -/
  | issued (forest : Nat) (handle : Handle) (node : Node)
  | saved (forest : Nat) (save : Save)
  | cleared (forest : Nat)
  /-- A forest has gone back to a save, before which there were so many events. -/
  | restored (forest : Nat) (past : Nat)

/-- Forests side by side with all that has been done, latest first. A restore may go back to any
save that the forest accepts. What is refused changes nothing. -/
inductive Traced : Workspace → List Event → Prop
  | start : Traced {} []
  | found {w : Workspace} {events : List Event} (settings : Settings) :
      Traced w events → Traced (w.found settings) events
  | build {w : Workspace} {events : List Event} {i : Nat} {f g : Forest} {layer : Layer}
      {h : Handle} {n : Node} : Traced w events → w.forests[i]? = some f →
      f.build layer = .ok (h, g) → g.node h = .ok n →
      Traced (w.put i g) (.issued i h n :: events)
  | advance {w : Workspace} {events : List Event} {i : Nat} {f : Forest} :
      Traced w events → w.forests[i]? = some f → Traced (w.put i f.advance) events
  | clear {w : Workspace} {events : List Event} (i : Nat) :
      Traced w events → Traced (w.clear i) (.cleared i :: events)
  | save {w : Workspace} {events : List Event} {i : Nat} {f : Forest} :
      Traced w events → w.forests[i]? = some f → Traced w (.saved i f.save :: events)
  | restore {w : Workspace} {events later earlier : List Event} {i j : Nat} {f g : Forest}
      {s : Save} : Traced w events → w.forests[i]? = some f →
      events = later ++ .saved j s :: earlier → f.restore s = .ok g →
      Traced (w.put i g) (.restored i earlier.length :: events)

/-- How often each forest was cleared. -/
def livesOf : List Event → Nat → Nat
  | [], _ => 0
  | .cleared i :: events, j => if j = i then livesOf events j + 1 else livesOf events j
  | _ :: events, j => livesOf events j

/-- Every save that was taken is noted, and for every handle a save of the same forest and life. -/
def NotedIn (notes : List Note) : List Event → Prop
  | [] => True
  | .issued i h _ :: events => (∃ s : Save, s.arena = h.arena ∧ ⟨i, livesOf events i, s⟩ ∈ notes) ∧
      NotedIn notes events
  | .saved i s :: events => ⟨i, livesOf events i, s⟩ ∈ notes ∧ NotedIn notes events
  | _ :: events => NotedIn notes events

variable {w : Workspace} {events before after : List Event} {notes notes' : List Note} {i j : Nat}
  {f g : Forest} {h : Handle} {n : Node} {s : Save}

theorem livesOf_append (after before : List Event) (i : Nat) :
    livesOf (after ++ before) i = livesOf after i + livesOf before i := by
  induction after with
  | nil => simp [livesOf]
  | cons e after ih =>
    cases e with
    | cleared j =>
      simp only [List.cons_append, livesOf, ih]
      split <;> omega
    | _ => exact ih

theorem livesOf_pos_of_mem (hc : .cleared i ∈ after) : 0 < livesOf after i := by
  obtain ⟨front, back, rfl⟩ := List.append_of_mem hc
  rw [livesOf_append, livesOf, if_pos rfl]
  omega

theorem NotedIn.weaken (hn : NotedIn notes events) (hsub : notes ⊆ notes') :
    NotedIn notes' events := by
  induction events with
  | nil => trivial
  | cons e events ih =>
    cases e with
    | issued i h n =>
      obtain ⟨⟨s, hs, hmem⟩, hrest⟩ := hn
      exact ⟨⟨s, hs, hsub hmem⟩, ih hrest⟩
    | saved i s => exact ⟨hsub hn.1, ih hn.2⟩
    | _ => exact ih hn

theorem NotedIn.earlier (hn : NotedIn notes (after ++ before)) : NotedIn notes before := by
  induction after with
  | nil => exact hn
  | cons e after ih =>
    cases e with
    | issued i h n => exact ih hn.2
    | saved i s => exact ih hn.2
    | _ => exact ih hn

/-- What is traced can be noted, with one more save wherever a handle is issued. -/
theorem Traced.noted (hw : w.Traced events) :
    ∃ notes, w.Noted (livesOf events) notes ∧ NotedIn notes events := by
  induction hw with
  | start => exact ⟨[], .start, trivial⟩
  | found settings _ ih =>
    obtain ⟨notes, hnoted, hin⟩ := ih
    exact ⟨notes, hnoted.found settings, hin⟩
  | @build _ events i f g layer h n _ hf hb _ ih =>
    obtain ⟨notes, hnoted, hin⟩ := ih
    have hattempt : f.attempt layer = g := by rw [Forest.attempt, hb]
    obtain ⟨m, -, hh, -⟩ := Forest.build_cases hb
    refine ⟨_, hattempt ▸ (hnoted.save hf).build layer hf, ⟨f.save, ?_, List.mem_cons_self⟩, ?_⟩
    · rw [hh]
      rfl
    · exact hin.weaken (List.subset_cons_self _ _)
  | advance _ hf ih =>
    obtain ⟨notes, hnoted, hin⟩ := ih
    exact ⟨notes, hnoted.advance hf, hin⟩
  | clear i _ ih =>
    obtain ⟨notes, hnoted, hin⟩ := ih
    exact ⟨notes, hnoted.clear i, hin⟩
  | save _ hf ih =>
    obtain ⟨notes, hnoted, hin⟩ := ih
    exact ⟨_, hnoted.save hf, List.mem_cons_self, hin.weaken (List.subset_cons_self _ _)⟩
  | @restore _ _ _ earlier _ j _ _ s _ hf hevents hr ih =>
    obtain ⟨notes, hnoted, hin⟩ := ih
    have hsaved : NotedIn notes (.saved j s :: earlier) := NotedIn.earlier (hevents ▸ hin)
    exact ⟨notes, hnoted.restore hf hsaved.1 hr, hin⟩

/-- The arena of a handle is that of its forest, which has not been cleared since. -/
theorem Traced.owner (hw : w.Traced (after ++ .issued i h n :: before))
    (hf : w.forests[j]? = some f) (arena : h.arena = f.arena) : j = i ∧ .cleared i ∉ after := by
  obtain ⟨notes, hnoted, hin⟩ := hw.noted
  obtain ⟨⟨s, hs, hnote⟩, -⟩ := hin.earlier
  obtain ⟨rfl, hlife⟩ := hnoted.apart.own hnote hf (hs.trans arena)
  refine ⟨rfl, fun hc => ?_⟩
  have hpos := livesOf_pos_of_mem hc
  simp only [livesOf_append, livesOf] at hlife
  omega

theorem Traced.saver (hw : w.Traced (after ++ .saved i s :: before))
    (hf : w.forests[j]? = some f) (arena : s.arena = f.arena) : j = i := by
  obtain ⟨notes, hnoted, hin⟩ := hw.noted
  obtain ⟨hnote, -⟩ := hin.earlier
  exact (hnoted.apart.own hnote hf arena).1.symm

theorem sound_put (hf : w.forests[j]? = some f) (hg : g.Sound)
    (hw : ∀ {i : Nat} {k : Forest}, w.forests[i]? = some k → k.Sound) {k : Forest}
    (hk : (w.put j g).forests[i]? = some k) : k.Sound := by
  rw [getElem?_put hf] at hk
  split at hk
  · exact Option.some.inj hk ▸ hg
  · exact hw hk

theorem Traced.sound (hw : w.Traced events) (hf : w.forests[i]? = some f) : f.Sound := by
  induction hw generalizing i f with
  | start => simp at hf
  | found settings _ ih =>
    simp only [Workspace.found, Array.getElem?_push] at hf
    split at hf
    · exact Option.some.inj hf ▸ Forest.sound_empty _ _
    · exact ih hf
  | build _ hk hb _ ih => exact sound_put hk ((ih hk).build hb) ih hf
  | advance _ hk ih => exact sound_put hk (ih hk).advance ih hf
  | clear j _ ih =>
    simp only [Workspace.clear, Array.getElem?_modify] at hf
    split at hf
    · obtain ⟨k, -, rfl⟩ := Option.map_eq_some_iff.mp hf
      exact Forest.sound_empty _ _
    · exact ih hf
  | save _ _ ih => exact ih hf
  | restore _ hk _ hr ih => exact sound_put hk ((ih hk).restore hr) ih hf

/-- Neither the forest of a handle was cleared nor has it gone back to a save from before the
handle was issued. -/
structure Spared (after before : List Event) (i : Nat) : Prop where
  uncleared : .cleared i ∉ after
  ahead : ∀ past, .restored i past ∈ after → before.length < past

theorem Spared.of_cons {e : Event} (hs : Spared (e :: after) before i) : Spared after before i where
  uncleared hc := hs.uncleared (List.mem_cons_of_mem _ hc)
  ahead past hp := hs.ahead past (List.mem_cons_of_mem _ hp)

/-- A spared handle has its node, and every save since then covers it. -/
structure Stands (w : Workspace) (after : List Event) (i : Nat) (h : Handle) (n : Node) : Prop where
  node : ∃ f, w.forests[i]? = some f ∧ f.node h = .ok n
  covered : ∀ s, .saved i s ∈ after → h.index < s.nodes

theorem Stands.cons {e : Event} (hs : w.Stands after i h n)
    (he : ∀ s, e = .saved i s → h.index < s.nodes) : w.Stands (e :: after) i h n where
  node := hs.node
  covered s hsaved := by
    rcases List.mem_cons.mp hsaved with hfirst | hsaved
    · exact he s hfirst.symm
    · exact hs.covered s hsaved

/-- A node that stays where it is. -/
theorem Stands.put (hs : w.Stands after i h n) (hf : w.forests[j]? = some f)
    (keeps : j = i → f.node h = .ok n → g.node h = .ok n) : (w.put j g).Stands after i h n := by
  obtain ⟨k, hk, hn⟩ := hs.node
  refine ⟨?_, hs.covered⟩
  by_cases hij : i = j
  · subst hij
    obtain rfl := Option.some.inj (hk.symm.trans hf)
    exact ⟨g, by rw [getElem?_put hf, if_pos rfl], keeps rfl hn⟩
  · exact ⟨k, by rw [getElem?_put hf, if_neg hij, hk], hn⟩

/-- A spared handle has its node from the step that issued it on. -/
theorem Traced.stands (hw : w.Traced events) (split : events = after ++ .issued i h n :: before)
    (hs : Spared after before i) : w.Stands after i h n := by
  induction hw generalizing after with
  | start => simp at split
  | found settings _ ih =>
    obtain ⟨⟨f, hf, hn⟩, hcovered⟩ := ih split hs
    refine ⟨⟨f, ?_, hn⟩, hcovered⟩
    obtain ⟨hlt, -⟩ := Array.getElem?_eq_some_iff.mp hf
    rw [Workspace.found, Array.getElem?_push, if_neg (Nat.ne_of_lt hlt), hf]
  | @build w events j f g layer k m hw hf hb hm ih =>
    obtain ⟨p, hg, -, -⟩ := Forest.build_cases hb
    cases after with
    | nil =>
      obtain ⟨he, -⟩ := List.cons.inj split
      obtain ⟨rfl, rfl, rfl⟩ := Event.issued.inj he
      exact ⟨⟨g, by rw [getElem?_put hf, if_pos rfl], hm⟩, by simp⟩
    | cons e after =>
      obtain ⟨rfl, htail⟩ := List.cons.inj split
      have hstands := (ih htail hs.of_cons).put hf fun _ hn => (hg.view _ _).mpr (Or.inl hn)
      exact hstands.cons (by simp)
  | advance _ hf ih => exact (ih split hs).put hf fun _ hn => hn
  | clear j _ ih =>
    cases after with
    | nil => simp at split
    | cons e after =>
      obtain ⟨rfl, htail⟩ := List.cons.inj split
      obtain ⟨⟨f, hf, hn⟩, hcovered⟩ := ih htail hs.of_cons
      have hne : j ≠ i := fun hj => hs.uncleared (hj ▸ List.mem_cons_self)
      refine Stands.cons ⟨⟨f, ?_, hn⟩, hcovered⟩ (by simp)
      rw [Workspace.clear, Array.getElem?_modify, if_neg hne, hf]
  | @save w events j f hw hf ih =>
    cases after with
    | nil => simp at split
    | cons e after =>
      obtain ⟨rfl, htail⟩ := List.cons.inj split
      obtain ⟨⟨k, hk, hn⟩, hcovered⟩ := ih htail hs.of_cons
      refine Stands.cons ⟨⟨k, hk, hn⟩, hcovered⟩ fun s he => ?_
      obtain ⟨rfl, rfl⟩ := Event.saved.inj he
      obtain rfl := Option.some.inj (hk.symm.trans hf)
      exact Forest.index_lt_size hn
  | @restore w events later earlier j l f g s hw hf hevents hr ih =>
    cases after with
    | nil => simp at split
    | cons e after =>
      obtain ⟨rfl, htail⟩ := List.cons.inj split
      have hstands := ih htail hs.of_cons
      refine (hstands.put hf fun hj hn => ?_).cons (by simp)
      subst hj
      -- the save was taken after the handle was issued, and by the same forest
      have hpast : before.length < earlier.length := hs.ahead _ List.mem_cons_self
      obtain rfl : j = l := Traced.saver (hevents ▸ hw) hf (Forest.restore_frame hr).1
      have hafter : .saved j s ∈ after :=
        mem_of_append_cons_eq (hevents.symm.trans htail) hpast
      exact (Forest.node_restore hr _ _).mpr ⟨hn, hstands.covered s hafter⟩

end Workspace

/-- **A handle stands for one node.** Whatever is done to forests side by side, a handle resolves
in no other forest than its own, and in none once that was cleared; there every operation on it
fails and changes nothing. Until then, and until its forest goes back to a save from before it was
issued, it stands for the node it was issued for, with all that is below. -/
theorem handle_denotes {w : Workspace} {events after before : List Workspace.Event} {i : Nat}
    {h : Handle} {n : Node} (hw : w.Traced events)
    (split : events = after ++ .issued i h n :: before) :
    (∀ {j : Nat} {f : Forest}, w.forests[j]? = some f → j ≠ i ∨ .cleared i ∈ after →
      f.Refuses h) ∧
    (.cleared i ∉ after → (∀ past, .restored i past ∈ after → before.length < past) →
      ∃ f, w.forests[i]? = some f ∧ f.Denotes h n) := by
  constructor
  · intro j f hf hgone
    refine Forest.refuses_of_find? (f.find?_eq_none_of_arena_ne h fun arena => ?_)
    obtain ⟨hj, huncleared⟩ := Workspace.Traced.owner (split ▸ hw) hf arena
    rcases hgone with hne | hcleared
    · exact hne hj
    · exact huncleared hcleared
  · intro uncleared ahead
    obtain ⟨f, hf, hn⟩ := (hw.stands split ⟨uncleared, ahead⟩).node
    exact ⟨f, hf, (hw.sound hf).denotes hn⟩

/-- A leaf of the first of two forests outlasts a branch over it that is taken back, and is gone
once the forest is cleared. The second forest never knows it. -/
theorem handle_denotes_leaf : ∃ (w : Workspace) (events after : List Workspace.Event)
    (f g k : Forest) (leaf : Node), w.Traced events ∧
      events = after ++ .issued 0 ⟨0, 0⟩ leaf :: [] ∧ .restored 0 1 ∈ after ∧
      w.forests[0]? = some f ∧ f.Denotes ⟨0, 0⟩ leaf ∧
      w.forests[1]? = some g ∧ g.Refuses ⟨0, 0⟩ ∧
      (w.clear 0).forests[0]? = some k ∧ k.Refuses ⟨0, 0⟩ := by
  have hleaf := ((Workspace.Traced.start.found {}).found {}).build (i := 0) rfl
    (rfl : Forest.build _ (.leaf "a") = _) rfl
  have hbranch := (hleaf.save (i := 0) rfl).build (i := 0) rfl
    (rfl : Forest.build _ (.branch "doc" [⟨0, 0⟩]) = _) rfl
  have hback := hbranch.restore (i := 0) rfl List.singleton_append.symm rfl
  have hlater : Workspace.Traced _ ([.restored 0 1, _, _] ++ .issued 0 ⟨0, 0⟩ _ :: []) := hback
  have hcleared : Workspace.Traced _ ([.cleared 0, _, _, _] ++ .issued 0 ⟨0, 0⟩ _ :: []) :=
    hback.clear 0
  obtain ⟨f, hf, hdenotes⟩ := (handle_denotes hlater rfl).2 (by simp) (by simp)
  have habroad := (handle_denotes hlater rfl).1 (j := 1) rfl (Or.inl (by decide))
  have hgone := (handle_denotes hcleared rfl).1 (j := 0) rfl (Or.inr List.mem_cons_self)
  exact ⟨_, _, _, f, _, _, _, hlater, rfl, List.mem_cons_self, hf, hdenotes, rfl, habroad, rfl,
    hgone⟩

end TreePatch
