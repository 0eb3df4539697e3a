import TreePatch.Proofs.Saves
import TreePatch.Proofs.Stamps

/-! Saves that are kept after a restore has gone behind them. A forest tells a save by numbers
alone, so once it has grown past them it takes back a save of nodes that are no longer there. A
restore gives back what was saved just where the nodes saved still stand
(`stray_restore_iff`); the first that does not leaves claims on nodes that are gone. -/

namespace TreePatch

namespace Forest

variable {f g past : Forest}

/-- All nodes of the second forest stand in the first under the same handles. -/
def Extends (f past : Forest) : Prop := ∀ h n, past.node h = .ok n → f.node h = .ok n

/-- Work within one generation that keeps every save it takes, noted here as the forest saved.
A restore goes back to any of them, as far as allowed. -/
inductive Strayed (allowed : Forest → Forest → Prop) (first : Forest) :
    Forest → List Forest → Prop
  | start : Strayed allowed first first []
  | build {f : Forest} {pasts : List Forest} (layer : Layer) :
      Strayed allowed first f pasts → Strayed allowed first (f.attempt layer) pasts
  | save {f : Forest} {pasts : List Forest} :
      Strayed allowed first f pasts → Strayed allowed first f (f :: pasts)
  | restore {f g past : Forest} {pasts : List Forest} :
      Strayed allowed first f pasts → past ∈ pasts → allowed f past →
      f.restore past.save = .ok g → Strayed allowed first g pasts

/-! ## The claim log -/

/-- Every claim noted is on a node that stands. -/
def Logged (f : Forest) : Prop := ∀ claim ∈ f.log, claim.1 < f.size

theorem Logged.claim (h : f.Logged) (i : Nat) : (f.claim i).Logged := by
  cases he : f.entries[i]? with
  | none => rwa [claim_of_none he]
  | some e =>
    intro claim hc
    rw [size_claim]
    simp only [Forest.claim, he] at hc
    rcases List.mem_cons.mp hc with rfl | hc
    · exact (Array.getElem?_eq_some_iff.mp he).1
    · exact h claim hc

theorem Logged.claimAll (h : f.Logged) (is : List Nat) : (f.claimAll is).Logged := by
  induction is generalizing f with
  | nil => exact h
  | cons i is ih => exact ih (h.claim i)

theorem Logged.add (h : f.Logged) (n : Node) : (f.add n).Logged := by
  intro claim hc
  rw [size_add]
  exact Nat.lt_succ_of_lt (h claim hc)

/-- With its claims in order a forest refuses a save or goes back. -/
theorem Logged.restore_cases (h : f.Logged) (s : Save) :
    (f.isStale s = true ∧ f.restore s = .error (.staleSave s.generation)) ∨
      (f.isStale s = false ∧ ∃ g, f.restore s = .ok g) := by
  cases hs : f.isStale s with
  | true => exact Or.inl ⟨rfl, by rw [Forest.restore, if_pos hs]⟩
  | false =>
    have hstand : ∀ claim ∈ f.log.take (f.log.length - s.claims), claim.1 < f.size :=
      fun claim hc => h claim (List.mem_of_mem_take hc)
    obtain ⟨entries, hundo⟩ := (undo_eq_ok_iff _ _).mpr hstand
    rw [restore_of_fresh hs, hundo]
    exact Or.inr ⟨rfl, _, rfl⟩

/-! ## A forest as the row of nodes built since -/

/-- Claims the children of a node and puts it after the others. -/
def extend (f : Forest) (n : Node) : Forest :=
  (f.claimAll (n.children.map (·.handle.index))).add n

/-- Builds nodes again, first to last. -/
def replay (f : Forest) (ns : List Node) : Forest := ns.foldl extend f

/-- The nodes by index. -/
def row (f : Forest) : List Node := f.entries.toList.map Entry.node

theorem build_eq_extend {layer : Layer} {h : Handle} (hb : f.build layer = .ok (h, g)) :
    ∃ n, g = f.extend n := by
  cases layer with
  | leaf text =>
    simp only [build, leaf, Except.ok.injEq, Prod.mk.injEq] at hb
    exact ⟨.leaf (f.leafTag text) text, hb.2.symm⟩
  | branch kind children =>
    simp only [build, branch] at hb
    split at hb
    · rename_i below _
      simp only [join, Except.ok.injEq, Prod.mk.injEq] at hb
      exact ⟨.branch (f.branchTag below) kind below, hb.2.symm⟩
    · cases hb

theorem row_claim (f : Forest) (i : Nat) : (f.claim i).row = f.row := by
  apply List.ext_getElem?
  intro j
  simpa only [row, List.getElem?_map, Array.getElem?_toList] using f.node_claim i j

theorem row_claimAll (f : Forest) (is : List Nat) : (f.claimAll is).row = f.row := by
  induction is generalizing f with
  | nil => rfl
  | cons i is ih => exact (ih (f.claim i)).trans (f.row_claim i)

theorem row_replay (f : Forest) (ns : List Node) : (f.replay ns).row = f.row ++ ns := by
  induction ns generalizing f with
  | nil => exact (List.append_nil _).symm
  | cons n ns ih =>
    have hextend : (f.extend n).row = f.row ++ [n] := by
      rw [← f.row_claimAll (n.children.map (·.handle.index))]
      simp [extend, add, row]
    exact (ih (f.extend n)).trans (by rw [hextend, List.append_assoc, List.singleton_append])

theorem replay_append (f : Forest) (ns ms : List Node) :
    f.replay (ns ++ ms) = (f.replay ns).replay ms := List.foldl_append

/-- A forest is the past of what is built on it. -/
theorem past_replay (f : Forest) (ns : List Node) : (f.replay ns).Past f := by
  suffices h : ∀ g : Forest, g.Past f → (g.replay ns).Past f from h f (past_self f)
  induction ns with
  | nil => exact fun g hg => hg
  | cons n ns ih => exact fun g hg => ih _ ((hg.claimAll _).add n)

theorem node_eq_ok_iff_row (f : Forest) (h : Handle) (n : Node) :
    f.node h = .ok n ↔ h.arena = f.arena ∧ f.row[h.index]? = some n := by
  rw [node_eq_ok_iff_index, row, List.getElem?_map, Array.getElem?_toList]

/-- A forest that extends another begins with its nodes. -/
theorem Extends.isPrefix (h : f.Extends past) : past.row <+: f.row := by
  rw [List.prefix_iff_getElem?]
  intro i hi
  have hpast : past.node (past.handleAt i) = .ok past.row[i] :=
    (past.node_eq_ok_iff_row _ _).mpr ⟨rfl, List.getElem?_eq_getElem hi⟩
  exact ((f.node_eq_ok_iff_row _ _).mp (h _ _ hpast)).2

theorem extends_of_restore (hr : f.restore past.save = .ok past) : f.Extends past :=
  fun h n hn => ((node_restore hr h n).mp hn).1

/-! ## Going back only where the nodes saved still stand -/

variable {first : Forest} {pasts : List Forest}

/-- Raised from the first forest without going back, all claims on nodes that stand. -/
structure Regrown (first f : Forest) : Prop where
  raised : f.Raised
  logged : f.Logged
  replayed : ∃ ns, f = first.replay ns

theorem Regrown.build {layer : Layer} {h : Handle} (hf : Regrown first f)
    (hb : f.build layer = .ok (h, g)) : Regrown first g := by
  obtain ⟨n, rfl⟩ := build_eq_extend hb
  obtain ⟨ns, hns⟩ := hf.replayed
  refine ⟨hf.raised.build hb, (hf.logged.claimAll _).add n, ns ++ [n], ?_⟩
  rw [replay_append, ← hns]
  rfl

/-- What still stands of the nodes built tells all that has happened since. -/
theorem Regrown.past_of_extends (hf : Regrown first f) (hp : Regrown first past)
    (h : f.Extends past) : f.Past past := by
  obtain ⟨ns, rfl⟩ := hf.replayed
  obtain ⟨ms, rfl⟩ := hp.replayed
  have hprefix := h.isPrefix
  rw [row_replay, row_replay, List.prefix_append_right_inj] at hprefix
  obtain ⟨rest, rfl⟩ := hprefix
  rw [replay_append]
  exact past_replay _ rest

theorem Raised.logged (hf : f.Raised) : f.Logged := by
  induction hf with
  | empty arena settings => exact List.forall_mem_nil _
  | build _ hb ih =>
    obtain ⟨n, rfl⟩ := build_eq_extend hb
    exact (ih.claimAll _).add n
  | advance _ _ => exact List.forall_mem_nil _

/-- Such a run leads to no forest that could not be built from the first. -/
theorem Strayed.regrown (hf : first.Raised) (h : Strayed Extends first f pasts) :
    ∀ k ∈ f :: pasts, Regrown first k := by
  induction h with
  | start =>
    intro k hk
    obtain rfl := List.mem_singleton.mp hk
    exact ⟨hf, hf.logged, [], rfl⟩
  | @build f pasts layer _ ih =>
    obtain ⟨hnow, hpasts⟩ := List.forall_mem_cons.mp ih
    refine List.forall_mem_cons.mpr ⟨?_, hpasts⟩
    rcases f.attempt_cases layer with he | ⟨h, hb⟩
    · rwa [he]
    · exact hnow.build hb
  | save _ ih => exact List.forall_mem_cons.mpr ⟨ih _ List.mem_cons_self, ih⟩
  | @restore f g past pasts _ hpast hextends hr ih =>
    obtain ⟨hnow, hpasts⟩ := List.forall_mem_cons.mp ih
    have hback := (hnow.past_of_extends (hpasts past hpast) hextends).restore
    obtain rfl : past = g := Except.ok.inj (hback.symm.trans hr)
    exact List.forall_mem_cons.mpr ⟨hpasts past hpast, hpasts⟩

/-- A work within one generation stays in its arena and generation. -/
theorem Strayed.frame {allowed : Forest → Forest → Prop} (h : Strayed allowed first f pasts) :
    ∀ k ∈ f :: pasts, k.arena = first.arena ∧ k.generation = first.generation := by
  induction h with
  | start => simp
  | @build f pasts layer _ ih =>
    obtain ⟨hnow, hpasts⟩ := List.forall_mem_cons.mp ih
    refine List.forall_mem_cons.mpr ⟨?_, hpasts⟩
    rcases f.attempt_cases layer with he | ⟨h, hb⟩
    · rwa [he]
    · obtain ⟨m, hg, -, -⟩ := build_cases hb
      exact ⟨hg.arena.trans hnow.1, hg.generation.trans hnow.2⟩
  | save _ ih => exact List.forall_mem_cons.mpr ⟨ih _ List.mem_cons_self, ih⟩
  | restore _ _ _ hr ih =>
    obtain ⟨hnow, hpasts⟩ := List.forall_mem_cons.mp ih
    obtain ⟨-, -, harena, hgen, -⟩ := restore_frame hr
    exact List.forall_mem_cons.mpr ⟨⟨harena.trans hnow.1, hgen.trans hnow.2⟩, hpasts⟩

/-- Within an arena and a generation a save is refused for its numbers alone. -/
theorem isStale_iff {s : Save} (arena : s.arena = f.arena) (gen : s.generation = f.generation) :
    f.isStale s = true ↔ f.size < s.nodes ∨ f.log.length < s.claims := by
  simp [isStale, arena, gen]

end Forest

open Forest

/-- **Saves that outlive a restore.** As long as every restore has gone back to nodes that still
stood, all claims are on nodes of the forest and tell the greatest generation right above
each. Any save taken so far is then refused, with nothing changed, just if the forest has fewer
nodes or claims than it tells of; and what was saved comes back just if all its nodes stand. -/
theorem stray_restore_iff {first f : Forest} {pasts : List Forest} (hf : first.Reachable)
    (h : Strayed Extends first f pasts) :
    (∀ claim ∈ f.log, claim.1 < f.size) ∧ f.Truthful ∧ ∀ past ∈ pasts,
      (((f.size < past.size ∨ f.log.length < past.log.length) ∧
          f.restore past.save = .error (.staleSave past.generation) ∧
          f.retreat past.save = f) ∨
        (past.size ≤ f.size ∧ past.log.length ≤ f.log.length ∧
          ∃ g, f.restore past.save = .ok g)) ∧
      (f.restore past.save = .ok past ↔ f.Extends past) := by
  obtain ⟨hnow, hpasts⟩ := List.forall_mem_cons.mp (h.regrown hf.raised)
  obtain ⟨hframe, hframes⟩ := List.forall_mem_cons.mp h.frame
  refine ⟨hnow.logged, hnow.raised.truthful, fun past hp => ⟨?_, extends_of_restore, ?_⟩⟩
  · obtain ⟨harena, hgen⟩ := hframes past hp
    have hstale : f.isStale past.save = true ↔
        f.size < past.size ∨ f.log.length < past.log.length :=
      isStale_iff (harena.trans hframe.1.symm) (hgen.trans hframe.2.symm)
    rcases hnow.logged.restore_cases past.save with ⟨hs, hr⟩ | ⟨hs, hr⟩
    · exact Or.inl ⟨hstale.mp hs, hr, retreat_of_refused hr⟩
    · have hnot : ¬ (f.size < past.size ∨ f.log.length < past.log.length) :=
        fun hlt => by rw [hstale.mpr hlt] at hs; cases hs
      rw [not_or, Nat.not_lt, Nat.not_lt] at hnot
      exact Or.inr ⟨hnot.1, hnot.2, hr⟩
  · exact fun hextends => (hnow.past_of_extends (hpasts past hp) hextends).restore

theorem strayed_pairedLeaf {allowed : Forest → Forest → Prop} (h : allowed pairedLeaf sharedLeaf) :
    Strayed allowed sharedLeaf crossedLeaf [pairedLeaf, sharedLeaf] := by
  have hsaved : Strayed allowed sharedLeaf pairedLeaf [pairedLeaf, sharedLeaf] :=
    ((Strayed.start.save.build (.leaf "x")).build (.branch "p" [⟨0, 0⟩, ⟨0, 0⟩])).save
  have hfirst : sharedLeaf ∈ [pairedLeaf, sharedLeaf] := by simp
  have hback : Strayed allowed sharedLeaf sharedLeaf [pairedLeaf, sharedLeaf] :=
    hsaved.restore hfirst h rfl
  exact (((hback.build (.leaf "u")).build (.leaf "v")).build (.leaf "w")).build
    (.branch "q" [⟨0, 0⟩, ⟨0, 4⟩])

/-- The branch saved is gone, so its save does not lead back. -/
theorem stray_restore_crossed :
    Strayed Extends sharedLeaf crossedLeaf [pairedLeaf, sharedLeaf] ∧ crossedLeaf.Truthful ∧
      crossedLeaf.Extends sharedLeaf ∧ crossedLeaf.restore pairedLeaf.save ≠ .ok pairedLeaf := by
  have hrun : Strayed Extends sharedLeaf crossedLeaf [pairedLeaf, sharedLeaf] :=
    strayed_pairedLeaf (extends_of_restore rfl)
  obtain ⟨-, htruthful, hsaves⟩ := stray_restore_iff (Scripted.reachable_forest _) hrun
  obtain ⟨hpaired, hshared⟩ := List.forall_mem_cons.mp hsaves
  refine ⟨hrun, htruthful, (hshared _ List.mem_cons_self).2.mp rfl, fun hr => ?_⟩
  obtain ⟨b, hb, hbranch⟩ : ∃ b, pairedLeaf.node ⟨0, 3⟩ = .ok b ∧ b.layer.isLeaf = false :=
    ⟨_, rfl, rfl⟩
  obtain ⟨v, hv, hleaf⟩ : ∃ v, crossedLeaf.node ⟨0, 3⟩ = .ok v ∧ v.layer.isLeaf = true :=
    ⟨_, rfl, rfl⟩
  obtain rfl := Except.ok.inj (hv.symm.trans (hpaired.2.mp hr _ _ hb))
  rw [hleaf] at hbranch
  cases hbranch

/-- **A save gone behind is taken back** once as many nodes and claims have come anew. The forest
it leads to is not the one saved, has a claim that no branch makes and another on a node that
is gone, and it cannot be taken back to the first save any more. -/
theorem stray_restore_fails :
    sharedLeaf.Reachable ∧
      Strayed (fun _ _ => True) sharedLeaf crossedLeaf [pairedLeaf, sharedLeaf] ∧
      crossedLeaf.restore pairedLeaf.save = .ok strandedLeaf ∧ strandedLeaf ≠ pairedLeaf ∧
      Strayed (fun _ _ => True) sharedLeaf strandedLeaf [pairedLeaf, sharedLeaf] ∧
      ¬ strandedLeaf.Logged ∧ ¬ strandedLeaf.Truthful ∧
      strandedLeaf.restore sharedLeaf.save = .error (.danglingClaim 4) := by
  have hrun : Strayed (fun _ _ => True) sharedLeaf crossedLeaf [pairedLeaf, sharedLeaf] :=
    strayed_pairedLeaf trivial
  have hwrong : crossedLeaf.restore pairedLeaf.save = .ok strandedLeaf := rfl
  refine ⟨Scripted.reachable_forest _, hrun, hwrong, fun he => ?_,
    hrun.restore List.mem_cons_self trivial hwrong, fun hlogged => ?_, fun htruthful => ?_, rfl⟩
  · have hnode : strandedLeaf.node ⟨0, 3⟩ = pairedLeaf.node ⟨0, 3⟩ := by rw [he]
    cases hnode
  · exact absurd (hlogged (4, 1) (by decide)) (by decide)
  · -- the claim of the leaf is left, the branch is not
    have hstamp : strandedLeaf.stamp ⟨0, 0⟩ = .ok ⟨0, 0, 1, 0⟩ := rfl
    have hrow : ∀ b ∈ strandedLeaf.row, (⟨0, 0⟩ : Handle) ∈ b.layer.children → b.born ≠ 1 := by
      decide
    rcases (htruthful.claimed hstamp).1 with hown | ⟨k, b, hb, hchild, hborn⟩
    · cases hown
    · have hmem := List.mem_of_getElem? ((strandedLeaf.node_eq_ok_iff_row k b).mp hb).2
      exact hrow b hmem hchild hborn.symm

end TreePatch
