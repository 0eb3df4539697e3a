import TreePatch.Proofs.Persistence

/-! A restore as the reverse of what was done since the save. One claim and one new node at a
time, the forest stays where a restore leads back to the past (`Past`). So live saves lead to
forests that were there before, and every forest that can be reached can be reached without
going back (`Reachable.raised`). -/

namespace TreePatch

namespace Forest

variable {past f g : Forest} {h : Handle} {layer : Layer}

/-! ## Taking claims back -/

theorem undo_size {entries result : Array Entry} {log : List (Nat × Generation)}
    (h : undo entries log = .ok result) : result.size = entries.size := by
  induction log generalizing entries with
  | nil =>
    simp only [undo, Except.ok.injEq] at h
    rw [h]
  | cons claim log ih =>
    obtain ⟨index, previous⟩ := claim
    simp only [undo] at h
    split at h
    · rw [ih h, Array.size_modify]
    · cases h

/-- Claims are taken back the same way when a node has come behind. -/
theorem undo_push {entries result : Array Entry} {log : List (Nat × Generation)} (e : Entry)
    (h : undo entries log = .ok result) : undo (entries.push e) log = .ok (result.push e) := by
  induction log generalizing entries with
  | nil =>
    simp only [undo, Except.ok.injEq] at h ⊢
    rw [h]
  | cons claim log ih =>
    obtain ⟨index, previous⟩ := claim
    simp only [undo] at h ⊢
    split at h
    · rename_i hlt
      have hmodify (change : Entry → Entry) :
          (entries.push e).modify index change = (entries.modify index change).push e := by
        apply Array.ext_getElem?
        intro i
        simp only [Array.getElem?_modify, Array.getElem?_push, Array.size_modify]
        by_cases hi : i = entries.size
        · rw [if_neg (by omega), if_pos hi, if_pos hi]
        · rw [if_neg hi, if_neg hi]
      rw [if_pos (by rw [Array.size_push]; omega), hmodify]
      exact ih h
    · cases h

/-- A claim taken back leaves what was there before the claim. -/
theorem undo_claim (f : Forest) (i : Nat) {e : Entry} (he : f.entries[i]? = some e)
    (log : List (Nat × Generation)) :
    undo (f.claim i).entries ((i, e.claimed) :: log) = undo f.entries log := by
  obtain ⟨hlt, hget⟩ := Array.getElem?_eq_some_iff.mp he
  simp only [claim, he, undo, Array.size_modify, if_pos hlt]
  congr 1
  apply Array.ext_getElem?
  intro j
  simp only [Array.getElem?_modify]
  split
  · rename_i hij
    subst hij
    simp [he]
  · rfl

theorem claim_of_none {i : Nat} (he : f.entries[i]? = none) : f.claim i = f := by
  simp [claim, he]

/-! ## The past of a forest -/

/-- The second forest was the first before some nodes and claims of this generation. -/
structure Past (f past : Forest) : Prop where
  arena : past.arena = f.arena
  settings : past.settings = f.settings
  generation : past.generation = f.generation
  behind : ∃ recent later, f.log = recent ++ past.log ∧
    undo f.entries recent = .ok (past.entries ++ later)

theorem past_self (f : Forest) : f.Past f where
  arena := rfl
  settings := rfl
  generation := rfl
  behind := ⟨[], #[], rfl, by simp [undo]⟩

theorem Past.isStale_save (h : f.Past past) : f.isStale past.save = false := by
  obtain ⟨recent, later, hlog, hundo⟩ := h.behind
  have hsize : past.size + later.size = f.size := by
    rw [size, size, ← undo_size hundo, Array.size_append]
  have hlength : f.log.length = recent.length + past.log.length := by
    rw [hlog, List.length_append]
  simp only [isStale, save, h.arena, h.generation, bne_self_eq_false, Bool.or_self,
    Bool.false_or, Bool.or_eq_false_iff, decide_eq_false_iff_not]
  constructor <;> omega

/-- A log that has grown is cut where it was at the save. -/
theorem split_log {recent : List (Nat × Generation)} (hlog : f.log = recent ++ past.log) :
    f.log.take (f.log.length - past.save.claims) = recent ∧
      f.log.drop (f.log.length - past.save.claims) = past.log := by
  have hlength : f.log.length - past.save.claims = recent.length := by
    rw [hlog, List.length_append]
    exact Nat.add_sub_cancel _ _
  rw [hlength, hlog]
  exact ⟨List.take_left, List.drop_left⟩

/-- **A restore to a save of the past leads there.** -/
theorem Past.restore (h : f.Past past) : f.restore past.save = .ok past := by
  obtain ⟨recent, later, hlog, hundo⟩ := h.behind
  obtain ⟨hrecent, holder⟩ := split_log hlog
  have htake : (past.entries ++ later).take past.save.nodes = past.entries := by
    simp [save, size]
  rw [restore_of_fresh h.isStale_save, hrecent, holder, hundo]
  simp only [Except.map, htake, Except.ok.injEq]
  rw [← h.arena, ← h.settings, ← h.generation]

theorem Past.claim (h : f.Past past) (i : Nat) : (f.claim i).Past past := by
  cases he : f.entries[i]? with
  | none => rwa [claim_of_none he]
  | some e =>
    obtain ⟨recent, later, hlog, hundo⟩ := h.behind
    refine ⟨by rw [arena_claim, h.arena], ?_, by rw [generation_claim, h.generation],
      (i, e.claimed) :: recent, later, ?_, ?_⟩
    · simp only [Forest.claim, he, h.settings]
    · simp only [Forest.claim, he, hlog, List.cons_append]
    · rw [undo_claim f i he, hundo]

theorem Past.claimAll (h : f.Past past) (is : List Nat) : (f.claimAll is).Past past := by
  induction is generalizing f with
  | nil => exact h
  | cons i is ih => exact ih (h.claim i)

theorem Past.add (h : f.Past past) (n : Node) : (f.add n).Past past := by
  obtain ⟨recent, later, hlog, hundo⟩ := h.behind
  refine ⟨h.arena, h.settings, h.generation, recent, later.push ⟨n, n.born⟩, hlog, ?_⟩
  rw [← Array.push_append]
  exact undo_push _ hundo

theorem Past.build (h : f.Past past) {k : Handle} (hb : f.build layer = .ok (k, g)) :
    g.Past past := by
  cases layer with
  | leaf text =>
    simp only [Forest.build, leaf, Except.ok.injEq, Prod.mk.injEq] at hb
    rw [← hb.2]
    exact h.add _
  | branch kind children =>
    simp only [Forest.build, branch] at hb
    split at hb
    · simp only [join, Except.ok.injEq, Prod.mk.injEq] at hb
      rw [← hb.2]
      exact (h.claimAll _).add _
    · cases hb

/-! ## Forests raised without going back -/

/-- Built up from an empty forest, generation by generation. -/
inductive Raised : Forest → Prop
  | empty (arena : Nat) (settings : Settings) : Raised { arena, settings }
  | build {f g : Forest} {layer : Layer} {h : Handle} :
      Raised f → f.build layer = .ok (h, g) → Raised g
  | advance {f : Forest} : Raised f → Raised f.advance

/-- Builds what can be built. A build that fails leaves the forest as it is. -/
def attempt (f : Forest) (layer : Layer) : Forest :=
  match f.build layer with
  | .ok (_, g) => g
  | .error _ => f

/-- Goes back if the save allows it. A restore that is refused leaves the forest as it is. -/
def retreat (f : Forest) (s : Save) : Forest :=
  match f.restore s with
  | .ok g => g
  | .error _ => f

theorem attempt_cases (f : Forest) (layer : Layer) :
    f.attempt layer = f ∨ ∃ h, f.build layer = .ok (h, f.attempt layer) := by
  unfold attempt
  cases hb : f.build layer with
  | ok out => exact Or.inr ⟨out.1, rfl⟩
  | error e => exact Or.inl rfl

end Forest

namespace Tended

open Forest

/-- The saves at hand come from forests that are the past of those after them, unless they are
of another arena or generation, and all of them were raised without going back. -/
structure Backed (t : Tended) (pasts : List Forest) : Prop where
  saves : t.saves = pasts.map Forest.save
  follows : (t.forest :: pasts).Pairwise fun f past =>
    past.arena = f.arena → past.generation = f.generation → f.Past past
  raised : ∀ f ∈ t.forest :: pasts, f.Raised

variable {t u : Tended} {pasts : List Forest}

theorem Backed.past (h : t.Backed pasts) {past : Forest} (hp : past ∈ pasts)
    (arena : past.arena = t.forest.arena) (generation : past.generation = t.forest.generation) :
    t.forest.Past past :=
  (List.pairwise_cons.mp h.follows).1 past hp arena generation

/-- Another forest takes the place of the present one, whose past it shares as far as it is of the
same arena and generation. -/
theorem Backed.turn (h : t.Backed pasts) {plot : Plot} (hraised : plot.forest.Raised)
    (hpast : ∀ past ∈ pasts, past.arena = plot.forest.arena →
      past.generation = plot.forest.generation → plot.forest.Past past) :
    Backed ⟨plot, t.saves⟩ pasts where
  saves := h.saves
  follows := List.pairwise_cons.mpr ⟨hpast, (List.pairwise_cons.mp h.follows).2⟩
  raised := List.forall_mem_cons.mpr ⟨hraised, (List.forall_mem_cons.mp h.raised).2⟩

theorem Backed.build (h : t.Backed pasts) {layer : Layer} {k : Handle} {g : Forest}
    (hb : t.forest.build layer = .ok (k, g)) : (t.put g).Backed pasts := by
  obtain ⟨m, hg, -, -⟩ := build_cases hb
  apply h.turn
  · exact (h.raised _ List.mem_cons_self).build hb
  · intro past hp arena generation
    exact (h.past hp (arena.trans hg.arena) (generation.trans hg.generation)).build hb

theorem Backed.save (h : t.Backed pasts) :
    Backed ⟨t.plot, t.forest.save :: t.saves⟩ (t.forest :: pasts) where
  saves := by rw [h.saves, List.map_cons]
  follows := by
    refine List.pairwise_cons.mpr ⟨?_, h.follows⟩
    intro past hp arena generation
    rcases List.mem_cons.mp hp with rfl | hp
    · exact past_self _
    · exact h.past hp arena generation
  raised := List.forall_mem_cons.mpr ⟨h.raised _ List.mem_cons_self, h.raised⟩

/-- A restore to a live save leads to the forest that was saved. -/
theorem Backed.restore (h : t.Backed pasts) {later earlier : List Save} {s : Save} {g : Forest}
    (hs : t.saves = later ++ s :: earlier) (hr : t.forest.restore s = .ok g) :
    ∃ gone rest, pasts = gone ++ g :: rest ∧ g.save = s ∧
      Backed ⟨t.plot.put g, s :: earlier⟩ (g :: rest) := by
  obtain ⟨gone, back, rfl, rfl, hback⟩ := List.map_eq_append_iff.mp (h.saves.symm.trans hs)
  obtain ⟨past, rest, rfl, rfl, rfl⟩ := List.map_eq_cons_iff.mp hback
  have hmem : past ∈ gone ++ past :: rest := List.mem_append_right _ List.mem_cons_self
  obtain ⟨harena, hgen, -⟩ := restore_frame hr
  have hpast := (h.past hmem harena hgen).restore
  obtain rfl : past = g := Except.ok.inj (hpast.symm.trans hr)
  have hrest := (List.pairwise_append.mp (List.pairwise_cons.mp h.follows).2).2.1
  refine ⟨gone, rest, rfl, rfl, rfl, ?_, ?_⟩
  · refine List.pairwise_cons.mpr ⟨?_, hrest⟩
    intro f hf arena generation
    rcases List.mem_cons.mp hf with rfl | hf
    · exact past_self _
    · exact (List.pairwise_cons.mp hrest).1 f hf arena generation
  · intro f hf
    refine h.raised f (List.mem_cons_of_mem _ (List.mem_append_right _ ?_))
    rcases List.mem_cons.mp hf with rfl | hf
    · exact List.mem_cons_self
    · exact hf

/-- Work within one generation: building, also in vain, saving, and going back to a save at hand
that no restore has gone behind. -/
inductive Task (t : Tended) : Tended → Prop
  | refl : Task t t
  | build {u : Tended} (layer : Layer) : Task t u → Task t (u.put (u.forest.attempt layer))
  | save {u : Tended} : Task t u → Task t ⟨u.plot, u.forest.save :: u.saves⟩
  | restore {u : Tended} {later earlier : List Save} {s : Save} {f : Forest} :
      Task t u → u.saves = later ++ s :: earlier → u.forest.restore s = .ok f →
      Task t ⟨u.plot.put f, s :: earlier⟩

/-- A task stays in its arena and generation. -/
theorem Task.frame (h : Task t u) : u.plot.spare = t.plot.spare ∧
    u.forest.arena = t.forest.arena ∧ u.forest.generation = t.forest.generation := by
  induction h with
  | refl => exact ⟨rfl, rfl, rfl⟩
  | @build u layer _ ih =>
    obtain ⟨hspare, harena, hgen⟩ := ih
    rcases u.forest.attempt_cases layer with hf | ⟨k, hb⟩
    · rw [hf]
      exact ⟨hspare, harena, hgen⟩
    · obtain ⟨m, hg, -, -⟩ := build_cases hb
      exact ⟨hspare, hg.arena.trans harena, hg.generation.trans hgen⟩
  | save _ ih => exact ih
  | restore _ _ hr ih =>
    obtain ⟨hspare, harena, hgen⟩ := ih
    obtain ⟨-, -, harena', hgen', -⟩ := restore_frame hr
    exact ⟨hspare, harena'.trans harena, hgen'.trans hgen⟩

/-- A task does not look at saves that were there before. -/
theorem Task.append (h : Task t u) (older : List Save) :
    Task ⟨t.plot, t.saves ++ older⟩ ⟨u.plot, u.saves ++ older⟩ := by
  induction h with
  | refl => exact .refl
  | build layer _ ih => exact ih.build layer
  | save _ ih => exact ih.save
  | @restore u later earlier s f _ hs hr ih =>
    have hsaves : u.saves ++ older = later ++ s :: (earlier ++ older) := by
      rw [hs, List.append_assoc, List.cons_append]
    exact ih.restore hsaves hr

/-- A task keeps the oldest of its saves at hand. -/
theorem Task.backed (h : Task t u) (ht : t.Backed pasts) :
    ∃ now, u.Backed now ∧ ∀ first, pasts.getLast? = some first → now.getLast? = some first := by
  induction h with
  | refl => exact ⟨pasts, ht, fun _ h => h⟩
  | @build u layer _ ih =>
    obtain ⟨now, hnow, hfirst⟩ := ih
    rcases u.forest.attempt_cases layer with hf | ⟨k, hb⟩
    · rw [hf]
      exact ⟨now, hnow, hfirst⟩
    · exact ⟨now, hnow.build hb, hfirst⟩
  | @save u _ ih =>
    obtain ⟨now, hnow, hfirst⟩ := ih
    refine ⟨_, hnow.save, fun first h => ?_⟩
    rw [List.getLast?_cons, hfirst first h, Option.getD_some]
  | restore _ hs hr ih =>
    obtain ⟨now, hnow, hfirst⟩ := ih
    obtain ⟨gone, rest, rfl, -, hback⟩ := hnow.restore hs hr
    refine ⟨_, hback, fun first h => ?_⟩
    rw [← hfirst first h, List.getLast?_append, List.getLast?_cons, Option.some_or]

theorem Backed.advance (h : t.Backed pasts) (ht : t.Sound) :
    (t.put t.forest.advance).Backed pasts := by
  apply h.turn
  · exact (h.raised _ List.mem_cons_self).advance
  · intro past hp arena generation
    -- no save is of a generation still to come
    have hs : past.save ∈ t.saves := h.saves ▸ List.mem_map_of_mem hp
    have hle : past.generation ≤ t.forest.generation := ((ht.saves _ hs).2 arena).1
    have hnext : past.generation = t.forest.generation + 1 := generation
    exact absurd (hnext ▸ hle) (Nat.not_succ_le_self _)

theorem Backed.clear (h : t.Backed pasts) (ht : t.Sound) {arena : Nat}
    (hle : t.plot.spare ≤ arena) :
    Backed ⟨⟨t.forest.clear arena, arena + 1⟩, t.saves⟩ pasts := by
  apply h.turn
  · exact .empty arena t.forest.settings
  · intro past hp harena
    -- nor is one of an arena that was not used before
    have hs : past.save ∈ t.saves := h.saves ▸ List.mem_map_of_mem hp
    have hlt : past.arena < t.plot.spare := (ht.saves _ hs).1
    exact absurd harena (Nat.ne_of_lt (Nat.lt_of_lt_of_le hlt hle))

theorem Backed.step (h : t.Backed pasts) (ht : t.Sound) (hs : Step false t u) :
    ∃ now, u.Backed now := by
  cases hs with
  | build hb => exact ⟨pasts, h.build hb⟩
  | advance => exact ⟨pasts, h.advance ht⟩
  | clear hle => exact ⟨pasts, h.clear ht hle⟩
  | save => exact ⟨_, h.save⟩
  | restore hsaves hr =>
    obtain ⟨gone, rest, -, -, hback⟩ := h.restore hsaves hr
    exact ⟨_, hback⟩

theorem Run.backed (h : Run false t u) (ht : t.Sound) (hb : t.Backed pasts) :
    ∃ now, u.Backed now := by
  induction h with
  | refl => exact ⟨pasts, hb⟩
  | tail hrun hs ih =>
    obtain ⟨now, hnow⟩ := ih
    exact hnow.step (hrun.sound ht) hs

end Tended

namespace Forest

variable {f : Forest}

/-- **Going back to live saves leads to no forest that could not be raised without.** -/
theorem Reachable.raised (hf : f.Reachable) : f.Raised := by
  obtain ⟨arena, settings, spare, t, hlt, hrun, rfl⟩ := hf
  have hstart : Tended.Backed ⟨⟨{ arena, settings }, spare⟩, []⟩ [] := by
    refine ⟨rfl, List.pairwise_singleton _ _, ?_⟩
    intro f hf
    obtain rfl := List.mem_singleton.mp hf
    exact .empty arena settings
  obtain ⟨now, hnow⟩ := hrun.backed (Tended.sound_start settings hlt) hstart
  exact hnow.raised _ List.mem_cons_self

theorem Raised.backed (hf : f.Raised) (spare : Nat) :
    Tended.Backed ⟨⟨f, spare⟩, [f.save]⟩ [f] := by
  refine ⟨rfl, List.pairwise_pair.mpr fun _ _ => past_self f, ?_⟩
  intro g hg
  obtain rfl : g = f := by simpa [Tended.forest] using hg
  exact hf

/-- **A task is undone by going back to the save that it began with.** -/
theorem Raised.restore_of_task (hf : f.Raised) {spare : Nat} {u : Tended}
    (h : Tended.Task ⟨⟨f, spare⟩, [f.save]⟩ u) : u.forest.restore f.save = .ok f := by
  obtain ⟨-, harena, hgen⟩ := h.frame
  obtain ⟨now, hnow, hfirst⟩ := h.backed (hf.backed spare)
  have hlast := List.mem_of_getLast? (hfirst f rfl)
  exact (hnow.past hlast harena.symm hgen.symm).restore

theorem Raised.task (hf : f.Raised) {spare : Nat} {u : Tended}
    (h : Tended.Task ⟨⟨f, spare⟩, [f.save]⟩ u) : u.forest.Raised := by
  obtain ⟨now, hnow, -⟩ := h.backed (hf.backed spare)
  exact hnow.raised _ List.mem_cons_self

end Forest
end TreePatch
