import TreePatch.Proofs.Rewind

/-! What becomes of a save. The forest it was taken of can be worked on and taken back to it, going
back to live saves in the meantime; with saves that a restore has gone behind, it comes back or
the claim log turns out to be broken (`Forest.Front`). Any other forest, and the same forest
once cleared or advanced, refuses the save. Which forest and which of its lives a save belongs
to is noted beside the workspace, and the arena numbers turn out to tell as much
(`Workspace.Apart`). -/

namespace TreePatch

/-- A save with the number of its forest and how often that had been cleared. -/
structure Note where
  forest : Nat
  life : Nat
  save : Save
  deriving Repr

namespace Workspace

/-- Forests side by side as they are worked on, how often each has been cleared, and every save
that was ever taken. A restore may go back to any of them that the forest accepts. -/
inductive Noted : Workspace → (Nat → Nat) → List Note → Prop
  | start : Noted {} (fun _ => 0) []
  | found {w : Workspace} {lives : Nat → Nat} {notes : List Note} (settings : Settings) :
      Noted w lives notes → Noted (w.found settings) lives notes
  | build {w : Workspace} {lives : Nat → Nat} {notes : List Note} {i : Nat} {f : Forest}
      (layer : Layer) : Noted w lives notes → w.forests[i]? = some f →
      Noted (w.put i (f.attempt layer)) lives notes
  | advance {w : Workspace} {lives : Nat → Nat} {notes : List Note} {i : Nat} {f : Forest} :
      Noted w lives notes → w.forests[i]? = some f → Noted (w.put i f.advance) lives notes
  | clear {w : Workspace} {lives : Nat → Nat} {notes : List Note} (i : Nat) :
      Noted w lives notes →
      Noted (w.clear i) (fun j => if j = i then lives j + 1 else lives j) notes
  | save {w : Workspace} {lives : Nat → Nat} {notes : List Note} {i : Nat} {f : Forest} :
      Noted w lives notes → w.forests[i]? = some f →
      Noted w lives (⟨i, lives i, f.save⟩ :: notes)
  | restore {w : Workspace} {lives : Nat → Nat} {notes : List Note} {i : Nat} {f g : Forest}
      {note : Note} : Noted w lives notes → w.forests[i]? = some f → note ∈ notes →
      f.restore note.save = .ok g → Noted (w.put i g) lives notes

/-- No arena number is used twice, and each save has that of its own forest and life. -/
structure Apart (w : Workspace) (lives : Nat → Nat) (notes : List Note) : Prop where
  fresh : ∀ {i : Nat} {f : Forest}, w.forests[i]? = some f → f.arena < w.spare
  apart : ∀ {i j : Nat} {f g : Forest}, w.forests[i]? = some f → w.forests[j]? = some g →
    f.arena = g.arena → i = j
  used : ∀ {note : Note}, note ∈ notes → note.save.arena < w.spare
  own : ∀ {note : Note} {i : Nat} {f : Forest}, note ∈ notes → w.forests[i]? = some f →
    note.save.arena = f.arena → note.forest = i ∧ note.life = lives i

variable {w : Workspace} {lives : Nat → Nat} {notes : List Note} {i j : Nat} {f g : Forest}

theorem getElem?_put (hf : w.forests[i]? = some f) :
    (w.put i g).forests[j]? = if j = i then some g else w.forests[j]? := by
  obtain ⟨hlt, -⟩ := Array.getElem?_eq_some_iff.mp hf
  simp only [put, Array.getElem?_setIfInBounds]
  by_cases hj : i = j
  · subst hj
    rw [if_pos rfl, if_pos hlt, if_pos rfl]
  · rw [if_neg hj, if_neg (Ne.symm hj)]

/-- What is put in place of a forest may have other nodes but is of the same arena. -/
theorem Apart.put (h : w.Apart lives notes) (hf : w.forests[i]? = some f)
    (arena : g.arena = f.arena) : (w.put i g).Apart lives notes := by
  -- at each number the arena is what it was
  have before : ∀ {j : Nat} {k : Forest}, (w.put i g).forests[j]? = some k →
      ∃ k', w.forests[j]? = some k' ∧ k.arena = k'.arena := by
    intro j k hk
    rw [getElem?_put hf] at hk
    split at hk
    · rename_i hj
      obtain rfl := Option.some.inj hk
      exact ⟨f, hj ▸ hf, arena⟩
    · exact ⟨k, hk, rfl⟩
  constructor
  · intro j k hk
    obtain ⟨k', hk', he⟩ := before hk
    exact he ▸ h.fresh hk'
  · intro j l k m hk hm he
    obtain ⟨k', hk', hke⟩ := before hk
    obtain ⟨m', hm', hme⟩ := before hm
    exact h.apart hk' hm' (hke.symm.trans (he.trans hme))
  · exact h.used
  · intro note j k hn hk he
    obtain ⟨k', hk', hke⟩ := before hk
    exact h.own hn hk' (he.trans hke)

/-- One forest begins anew in an arena not used before, and the others stay as they are. -/
theorem Apart.renew (h : w.Apart lives notes) {v : Workspace} {lives' : Nat → Nat} (i : Nat)
    (spare : v.spare = w.spare + 1)
    (forests : ∀ {j : Nat} {k : Forest}, v.forests[j]? = some k →
      (j = i ∧ k.arena = w.spare) ∨ (w.forests[j]? = some k ∧ lives' j = lives j)) :
    v.Apart lives' notes := by
  constructor
  · intro j k hk
    rw [spare]
    rcases forests hk with ⟨-, he⟩ | ⟨hk, -⟩
    · exact he ▸ Nat.lt_succ_self _
    · exact Nat.lt_succ_of_lt (h.fresh hk)
  · intro j l k m hk hm he
    rcases forests hk with ⟨hj, hke⟩ | ⟨hk, -⟩ <;> rcases forests hm with ⟨hl, hme⟩ | ⟨hm, -⟩
    · rw [hj, hl]
    · have := h.fresh hm
      omega
    · have := h.fresh hk
      omega
    · exact h.apart hk hm he
  · intro note hn
    rw [spare]
    exact Nat.lt_succ_of_lt (h.used hn)
  · intro note j k hn hk he
    rcases forests hk with ⟨-, hke⟩ | ⟨hk, hlives⟩
    · have := h.used hn
      omega
    · rw [hlives]
      exact h.own hn hk he

theorem Apart.found (h : w.Apart lives notes) (settings : Settings) :
    (w.found settings).Apart lives notes := by
  apply h.renew w.forests.size rfl
  intro j k hk
  simp only [Workspace.found, Array.getElem?_push] at hk
  split at hk
  · rename_i hj
    exact Or.inl ⟨hj, by rw [← Option.some.inj hk]⟩
  · exact Or.inr ⟨hk, rfl⟩

theorem Apart.clear (h : w.Apart lives notes) (i : Nat) :
    (w.clear i).Apart (fun j => if j = i then lives j + 1 else lives j) notes := by
  apply h.renew i rfl
  intro j k hk
  simp only [Workspace.clear, Array.getElem?_modify] at hk
  split at hk
  · rename_i hj
    obtain ⟨f, -, rfl⟩ := Option.map_eq_some_iff.mp hk
    exact Or.inl ⟨hj.symm, rfl⟩
  · rename_i hj
    exact Or.inr ⟨hk, if_neg (Ne.symm hj)⟩

theorem Apart.save (h : w.Apart lives notes) (hf : w.forests[i]? = some f) :
    w.Apart lives (⟨i, lives i, f.save⟩ :: notes) where
  fresh := h.fresh
  apart := h.apart
  used := by
    intro note hn
    rcases List.mem_cons.mp hn with rfl | hn
    · exact h.fresh hf
    · exact h.used hn
  own := by
    intro note j k hn hk he
    rcases List.mem_cons.mp hn with rfl | hn
    · obtain rfl : i = j := h.apart hf hk he
      exact ⟨rfl, rfl⟩
    · exact h.own hn hk he

theorem Noted.apart (h : Noted w lives notes) : w.Apart lives notes := by
  induction h with
  | start => exact ⟨by simp, by simp, by simp, by simp⟩
  | found settings _ ih => exact ih.found settings
  | @build _ _ _ _ f layer _ hf ih =>
    refine ih.put hf ?_
    rcases f.attempt_cases layer with he | ⟨k, hb⟩
    · rw [he]
    · obtain ⟨m, hg, -, -⟩ := Forest.build_cases hb
      exact hg.arena
  | advance _ hf ih => exact ih.put hf rfl
  | clear i _ ih => exact ih.clear i
  | save _ hf ih => exact ih.save hf
  | restore _ hf _ hr ih => exact ih.put hf (Forest.restore_frame hr).2.2.1

end Workspace

namespace Forest

/-- A save of another arena or generation is refused. -/
theorem restore_of_ne {f : Forest} {s : Save}
    (h : s.arena ≠ f.arena ∨ s.generation ≠ f.generation) :
    f.restore s = .error (.staleSave s.generation) := by
  have hstale : f.isStale s = true := by
    unfold isStale
    rcases h with h | h <;> simp [h]
  rw [restore, if_pos hstale]

theorem retreat_of_refused {f : Forest} {s : Save} {e : Error} (h : f.restore s = .error e) :
    f.retreat s = f := by
  rw [retreat, h]

/-! ## Any saves that are not behind -/

/-- Work within one generation. A restore goes to any save that the forest takes, live or not, if
it tells of no fewer nodes and claims than there were at first. -/
inductive Ahead (first : Forest) : Forest → Prop
  | start : Ahead first first
  | build {f : Forest} (layer : Layer) : Ahead first f → Ahead first (f.attempt layer)
  | restore {f g : Forest} {s : Save} : Ahead first f → first.size ≤ s.nodes →
      first.log.length ≤ s.claims → f.restore s = .ok g → Ahead first g

/-- The claim a node had before those of a log, which has the latest first. -/
def claimBefore (index : Nat) (now : Generation) : List (Nat × Generation) → Generation
  | [] => now
  | (i, previous) :: older => claimBefore index (if i = index then previous else now) older

theorem claimBefore_append (index : Nat) (now : Generation)
    (recent older : List (Nat × Generation)) :
    claimBefore index now (recent ++ older) =
      claimBefore index (claimBefore index now recent) older := by
  induction recent generalizing now with
  | nil => rfl
  | cons claim recent ih => exact ih _

theorem undo_getElem? {entries result : Array Entry} {log : List (Nat × Generation)}
    (h : undo entries log = .ok result) (i : Nat) :
    result[i]? = entries[i]?.map fun e => { e with claimed := claimBefore i e.claimed log } := by
  induction log generalizing entries with
  | nil =>
    obtain rfl : entries = result := Except.ok.inj h
    exact Option.map_id'.symm
  | cons claim log ih =>
    obtain ⟨index, previous⟩ := claim
    simp only [undo] at h
    split at h
    · rw [ih h, Array.getElem?_modify]
      split
      · rename_i hi
        simp [claimBefore, hi, Function.comp_def]
      · rename_i hi
        simp [claimBefore, hi]
    · cases h

/-- Claims are taken back just if all of them are on nodes that stand. -/
theorem undo_eq_ok_iff (entries : Array Entry) (log : List (Nat × Generation)) :
    (∃ result, undo entries log = .ok result) ↔ ∀ claim ∈ log, claim.1 < entries.size := by
  induction log generalizing entries with
  | nil => simp [undo]
  | cons claim log ih =>
    obtain ⟨index, previous⟩ := claim
    rw [List.forall_mem_cons]
    by_cases hi : index < entries.size
    · rw [undo, if_pos hi, ih, Array.size_modify]
      exact (and_iff_right hi).symm
    · simp [undo, hi]

theorem undo_eq_error {entries : Array Entry} {log : List (Nat × Generation)} {e : Error}
    (h : undo entries log = .error e) :
    ∃ claim ∈ log, entries.size ≤ claim.1 ∧ e = .danglingClaim claim.1 := by
  induction log generalizing entries with
  | nil => cases h
  | cons claim log ih =>
    obtain ⟨index, previous⟩ := claim
    simp only [undo] at h
    split at h
    · obtain ⟨claim, hc, hsize, he⟩ := ih h
      rw [Array.size_modify] at hsize
      exact ⟨claim, List.mem_cons_of_mem _ hc, hsize, he⟩
    · rename_i hi
      exact ⟨(index, previous), List.mem_cons_self, Nat.le_of_not_lt hi, (Except.error.inj h).symm⟩

/-- The first forest still makes up the front of the other, but for the claims noted since. Whether
these can be taken back is left open. -/
structure Front (f first : Forest) (recent : List (Nat × Generation)) : Prop where
  arena : first.arena = f.arena
  settings : first.settings = f.settings
  generation : first.generation = f.generation
  size : first.size ≤ f.size
  log : f.log = recent ++ first.log
  entries : ∀ i < first.size,
    f.entries[i]?.map (fun e => { e with claimed := claimBefore i e.claimed recent }) =
      first.entries[i]?

variable {f g first : Forest} {recent : List (Nat × Generation)}

theorem front_self (f : Forest) : f.Front f [] where
  arena := rfl
  settings := rfl
  generation := rfl
  size := Nat.le_refl _
  log := rfl
  entries _ _ := Option.map_id'

theorem Front.claim (h : f.Front first recent) (i : Nat) :
    ∃ recent, (f.claim i).Front first recent := by
  cases he : f.entries[i]? with
  | none =>
    rw [claim_of_none he]
    exact ⟨recent, h⟩
  | some e =>
    refine ⟨(i, e.claimed) :: recent, by rw [arena_claim, h.arena], ?_,
      by rw [generation_claim, h.generation], by rw [size_claim]; exact h.size, ?_, ?_⟩
    · simp only [Forest.claim, he, h.settings]
    · simp only [Forest.claim, he, h.log, List.cons_append]
    · intro j hj
      rw [← h.entries j hj]
      simp only [Forest.claim, he, Array.getElem?_modify]
      split
      · rename_i hij
        subst hij
        simp [he, claimBefore]
      · rename_i hij
        simp [claimBefore, hij]

theorem Front.claimAll (h : f.Front first recent) (is : List Nat) :
    ∃ recent, (f.claimAll is).Front first recent := by
  induction is generalizing f recent with
  | nil => exact ⟨recent, h⟩
  | cons i is ih =>
    obtain ⟨_, hi⟩ := h.claim i
    exact ih hi

theorem Front.add (h : f.Front first recent) (n : Node) : (f.add n).Front first recent where
  arena := h.arena
  settings := h.settings
  generation := h.generation
  size := by
    rw [size_add]
    exact Nat.le_succ_of_le h.size
  log := h.log
  entries i hi := by
    have hlt : i ≠ f.entries.size := Nat.ne_of_lt (Nat.lt_of_lt_of_le hi h.size)
    rw [← h.entries i hi]
    simp only [Forest.add, Array.getElem?_push, if_neg hlt]

theorem Front.build (h : f.Front first recent) {layer : Layer} {k : Handle}
    (hb : f.build layer = .ok (k, g)) : ∃ recent, g.Front first recent := by
  cases layer with
  | leaf text =>
    simp only [Forest.build, leaf, Except.ok.injEq, Prod.mk.injEq] at hb
    rw [← hb.2]
    exact ⟨recent, h.add _⟩
  | branch kind children =>
    simp only [Forest.build, branch] at hb
    split at hb
    · simp only [join, Except.ok.injEq, Prod.mk.injEq] at hb
      rw [← hb.2]
      obtain ⟨recent, hclaims⟩ := h.claimAll _
      exact ⟨recent, hclaims.add _⟩
    · cases hb

theorem isStale_eq_false_iff (f : Forest) (s : Save) : f.isStale s = false ↔
    s.arena = f.arena ∧ s.generation = f.generation ∧ s.nodes ≤ f.size ∧
      s.claims ≤ f.log.length := by
  simp [isStale, and_assoc]

/-- What a restore leaves of the claims noted since is the older part of them. -/
theorem Front.restore (h : f.Front first recent) {s : Save} (nodes : first.size ≤ s.nodes)
    (claims : first.log.length ≤ s.claims) (hr : f.restore s = .ok g) :
    ∃ recent, g.Front first recent := by
  obtain ⟨hstale, entries, hundo, rfl⟩ := restore_eq_ok hr
  obtain ⟨-, -, hnodes, -⟩ := (isStale_eq_false_iff f s).mp hstale
  have hlength : f.log.length = recent.length + first.log.length := by
    rw [h.log, List.length_append]
  have hk : f.log.length - s.claims ≤ recent.length := by omega
  have hundone : f.log.take (f.log.length - s.claims) =
      recent.take (f.log.length - s.claims) := by
    rw [h.log, List.take_append_of_le_length (by rwa [← h.log])]
  rw [hundone] at hundo
  refine ⟨recent.drop (f.log.length - s.claims), h.arena, h.settings, h.generation, ?_, ?_, ?_⟩
  · have hsize : entries.size = f.size := undo_size hundo
    have htake : (entries.take s.nodes).size = min s.nodes entries.size := by simp
    have hfirst := h.size
    change first.size ≤ (entries.take s.nodes).size
    omega
  · change f.log.drop _ = _
    rw [h.log, List.drop_append_of_le_length (by rwa [← h.log])]
  · intro i hi
    rw [← h.entries i hi, getElem?_take, if_pos (Nat.lt_of_lt_of_le hi nodes),
      undo_getElem? hundo, Option.map_map]
    congr 1
    funext e
    simp only [Function.comp_def, ← claimBefore_append, List.take_append_drop]

theorem Ahead.front (h : Ahead first f) : ∃ recent, f.Front first recent := by
  induction h with
  | start => exact ⟨[], front_self first⟩
  | @build f layer _ ih =>
    obtain ⟨recent, hfront⟩ := ih
    rcases f.attempt_cases layer with he | ⟨k, hb⟩
    · rw [he]
      exact ⟨recent, hfront⟩
    · exact hfront.build hb
  | restore _ nodes claims hr ih =>
    obtain ⟨recent, hfront⟩ := ih
    exact hfront.restore nodes claims hr

/-- A restore to the first forest succeeds, and exactly, just if all claims noted since are on
nodes that stand. -/
theorem Front.restore_cases (h : f.Front first recent) :
    ((∀ claim ∈ recent, claim.1 < f.size) ∧ f.restore first.save = .ok first) ∨
      ∃ claim ∈ recent, f.size ≤ claim.1 ∧
        f.restore first.save = .error (.danglingClaim claim.1) := by
  have hstale : f.isStale first.save = false := by
    refine (isStale_eq_false_iff f _).mpr ⟨h.arena, h.generation, h.size, ?_⟩
    simp [save, h.log]
  obtain ⟨hrecent, holder⟩ := split_log h.log
  rw [restore_of_fresh hstale, hrecent, holder]
  cases hundo : undo f.entries recent with
  | error e =>
    obtain ⟨claim, hc, hsize, rfl⟩ := undo_eq_error hundo
    exact Or.inr ⟨claim, hc, hsize, rfl⟩
  | ok entries =>
    refine Or.inl ⟨(undo_eq_ok_iff _ _).mp ⟨entries, hundo⟩, ?_⟩
    have hentries : entries.take first.save.nodes = first.entries := by
      apply Array.ext_getElem?
      intro i
      rw [getElem?_take]
      split
      · rename_i hi
        rw [undo_getElem? hundo, h.entries i hi]
      · rename_i hi
        exact (Array.getElem?_eq_none (Nat.le_of_not_lt hi)).symm
    simp only [Except.map, hentries, Except.ok.injEq]
    rw [← h.arena, ← h.settings, ← h.generation]

theorem Ahead.sizes (h : Ahead first f) :
    first.size ≤ f.save.nodes ∧ first.log.length ≤ f.save.claims := by
  obtain ⟨recent, hfront⟩ := h.front
  refine ⟨hfront.size, ?_⟩
  simp [save, hfront.log]

end Forest

open Forest

/-- A task goes back to live saves only, none of which is behind the first. -/
theorem Tended.Task.ahead {first : Forest} {spare : Nat} {u : Tended}
    (h : Task ⟨⟨first, spare⟩, [first.save]⟩ u) : Ahead first u.forest ∧
      ∀ s ∈ u.saves, first.size ≤ s.nodes ∧ first.log.length ≤ s.claims := by
  induction h with
  | refl => exact ⟨.start, List.forall_mem_singleton.mpr Ahead.start.sizes⟩
  | build layer _ ih => exact ⟨ih.1.build layer, ih.2⟩
  | save _ ih => exact ⟨ih.1, List.forall_mem_cons.mpr ⟨ih.1.sizes, ih.2⟩⟩
  | restore _ hs hr ih =>
    obtain ⟨hahead, hsaves⟩ := ih
    rw [hs] at hsaves
    have hkept := fun s hs => hsaves s (List.mem_append_right _ hs)
    obtain ⟨nodes, claims⟩ := hkept _ List.mem_cons_self
    exact ⟨hahead.restore nodes claims hr, hkept⟩

/-- **A save gives back what was saved.** Whatever is built, saved and gone back to in the meantime,
if only by saves that are not behind it, a restore to the first save leads to the very forest
it was taken of as long as all claims noted since are on nodes that stand. Else it breaks off at
one that is not. With live saves alone it always leads there. Another forest refuses the save,
and so does its own one once it was cleared or is in another generation; then nothing changes. -/
theorem restore_exact {first f : Forest} (h : Ahead first f) :
    (∃ recent, f.log = recent ++ first.log ∧
      (((∀ claim ∈ recent, claim.1 < f.size) ∧ f.restore first.save = .ok first) ∨
        ∃ claim ∈ recent, f.size ≤ claim.1 ∧
          f.restore first.save = .error (.danglingClaim claim.1))) ∧
    (∀ {spare : Nat} {u : Tended}, first.Reachable →
      Tended.Task ⟨⟨first, spare⟩, [first.save]⟩ u → Ahead first u.forest ∧
        u.forest.restore first.save = .ok first ∧ u.forest.retreat first.save = first) ∧
    (∀ {w : Workspace} {lives : Nat → Nat} {notes : List Note} {i : Nat} {g : Forest}
      {note : Note}, w.Noted lives notes → w.forests[i]? = some g → note ∈ notes →
      note.forest ≠ i ∨ note.life ≠ lives i ∨ note.save.generation ≠ g.generation →
      g.restore note.save = .error (.staleSave note.save.generation) ∧
        g.retreat note.save = g) := by
  refine ⟨?_, ?_, ?_⟩
  · obtain ⟨recent, hfront⟩ := h.front
    exact ⟨recent, hfront.log, hfront.restore_cases⟩
  · intro spare u hfirst htask
    have hrestore := hfirst.raised.restore_of_task htask
    exact ⟨htask.ahead.1, hrestore, by rw [Forest.retreat, hrestore]⟩
  · intro w lives notes i g note hw hg hn hne
    have hrefused : g.restore note.save = .error (.staleSave note.save.generation) := by
      apply Forest.restore_of_ne
      rcases hne with hforest | hlife | hgen
      · exact Or.inl fun he => hforest (hw.apart.own hn hg he).1
      · exact Or.inl fun he => hlife (hw.apart.own hn hg he).2
      · exact Or.inr hgen
    exact ⟨hrefused, Forest.retreat_of_refused hrefused⟩

/-- A leaf below a branch, and a generation later. -/
def sharedLeaf : Forest :=
  Scripted.forest [.build (.branch "doc" [.leaf "a" none] none), .advance]

/-- A branch takes the leaf twice. -/
def pairedLeaf : Forest := (sharedLeaf.attempt (.leaf "x")).attempt (.branch "p" [⟨0, 0⟩, ⟨0, 0⟩])

/-- More nodes in the place of that branch, and another branch over the leaf and the last of
them. -/
def crossedLeaf : Forest :=
  (((sharedLeaf.attempt (.leaf "u")).attempt (.leaf "v")).attempt (.leaf "w")).attempt
    (.branch "q" [⟨0, 0⟩, ⟨0, 4⟩])

/-- Where the save of the first branch leads from there. -/
def strandedLeaf : Forest := crossedLeaf.retreat pairedLeaf.save

theorem ahead_pairedLeaf : Ahead sharedLeaf pairedLeaf :=
  (Ahead.start.build (.leaf "x")).build (.branch "p" [⟨0, 0⟩, ⟨0, 0⟩])

/-- A restore to the first save gives the branch up, and more nodes come in its place. -/
theorem ahead_crossedLeaf : Ahead sharedLeaf crossedLeaf := by
  have hrestore : pairedLeaf.restore sharedLeaf.save = .ok sharedLeaf := rfl
  have hback := ahead_pairedLeaf.restore (Nat.le_refl _) (Nat.le_refl _) hrestore
  exact (((hback.build (.leaf "u")).build (.leaf "v")).build (.leaf "w")).build
    (.branch "q" [⟨0, 0⟩, ⟨0, 4⟩])

/-- The leaf is claimed once where the branch over it was given up, twice by one branch and once by
another where only live saves are used. -/
theorem restore_exact_claimed :
    (Ahead sharedLeaf crossedLeaf ∧ crossedLeaf.restore sharedLeaf.save = .ok sharedLeaf) ∧
    (∃ u : Tended, Tended.Task ⟨⟨sharedLeaf, 1⟩, [sharedLeaf.save]⟩ u ∧
      sharedLeaf.claimedAt ⟨0, 0⟩ = 0 ∧ u.forest.claimedAt ⟨0, 0⟩ = 1 ∧ u.forest.size = 4 ∧
      u.forest.restore sharedLeaf.save = .ok sharedLeaf) ∧
    ∃ (w : Workspace) (lives : Nat → Nat) (notes : List Note) (f : Forest) (note : Note),
      w.Noted lives notes ∧ w.forests[0]? = some f ∧ note ∈ notes ∧ note.forest = 0 ∧
      note.life = 0 ∧ lives 0 = 1 ∧ f.restore note.save = .error (.staleSave 0) := by
  obtain ⟨⟨recent, hlog, hcases⟩, hlive, hstale⟩ := restore_exact ahead_crossedLeaf
  refine ⟨⟨ahead_crossedLeaf, ?_⟩, ?_, ?_⟩
  · rcases hcases with ⟨-, hrestore⟩ | ⟨claim, hc, hgone, -⟩
    · exact hrestore
    · -- all claims there are on nodes that stand
      have hmem : claim ∈ crossedLeaf.log := hlog ▸ List.mem_append_left _ hc
      have hstands : ∀ claim ∈ crossedLeaf.log, claim.1 < crossedLeaf.size := by decide
      exact absurd hgone (Nat.not_le_of_lt (hstands claim hmem))
  · -- a heading, a save, a branch with the leaf twice, and back; then a quote
    have hheading := (Tended.Task.refl (t := ⟨⟨sharedLeaf, 1⟩, [sharedLeaf.save]⟩)).build
      (.leaf "title")
    have htwice := hheading.save.build (.branch "pair" [⟨0, 0⟩, ⟨0, 0⟩])
    have hback := (htwice.restore (List.nil_append _).symm rfl).build (.branch "quote" [⟨0, 0⟩])
    have hrestore := (hlive (Scripted.reachable_forest _) hback).2.1
    exact ⟨_, hback, rfl, rfl, rfl, hrestore⟩
  · have hsaved := (Workspace.Noted.start.found {}).save (i := 0) rfl
    have hcleared := hsaved.clear 0
    have hrefused := (hstale (i := 0) hcleared rfl List.mem_cons_self
      (Or.inr (Or.inl (by decide)))).1
    exact ⟨_, _, _, _, _, hcleared, rfl, List.mem_cons_self, rfl, rfl, rfl, hrefused⟩

/-- **An abandoned save spoils the one before it.** The branch saved is given up by a restore to
the first save, more nodes come in its place, and its save is taken back as it stands. The
first save, never gone behind, cannot be gone back to any more. -/
theorem restore_exact_fails_of_abandoned :
    sharedLeaf.Reachable ∧ Ahead sharedLeaf pairedLeaf ∧
      pairedLeaf.restore sharedLeaf.save = .ok sharedLeaf ∧ Ahead sharedLeaf crossedLeaf ∧
      crossedLeaf.restore pairedLeaf.save = .ok strandedLeaf ∧ Ahead sharedLeaf strandedLeaf ∧
      strandedLeaf.restore sharedLeaf.save = .error (.danglingClaim 4) := by
  have hwrong : crossedLeaf.restore pairedLeaf.save = .ok strandedLeaf := rfl
  have hsize : sharedLeaf.size ≤ pairedLeaf.save.nodes := by decide
  have hclaims : sharedLeaf.log.length ≤ pairedLeaf.save.claims := by decide
  exact ⟨Scripted.reachable_forest _, ahead_pairedLeaf, rfl, ahead_crossedLeaf, hwrong,
    ahead_crossedLeaf.restore hsize hclaims hwrong, rfl⟩

end TreePatch
