import TreePatch.Proofs.Sound

/-! Nodes outlast the runs that follow their generation. A restore goes back within one
generation only, so a node of an earlier one stays as it is (`Tended.Run.keeps_node`) until its
forest is cleared, and then nothing bears its name again. -/

namespace TreePatch

/-- In a forest of its arena a save comes behind all nodes of earlier generations. -/
def Save.Covers (s : Save) (f : Forest) : Prop :=
  s.arena = f.arena → s.generation ≤ f.generation ∧
    ∀ h n, f.node h = .ok n → n.born < s.generation → h.index < s.nodes

namespace Save

variable {s : Save} {f g : Forest} {m : Node}

theorem covers_self (f : Forest) : f.save.Covers f :=
  fun _ => ⟨Nat.le_refl _, fun _ _ hn _ => Forest.index_lt_size hn⟩

theorem Covers.grow (hs : s.Covers f) (hg : f.Grows g m) : s.Covers g := by
  intro ha
  obtain ⟨hle, hlt⟩ := hs (ha.trans hg.arena)
  refine ⟨hg.generation ▸ hle, fun h n hn hborn => ?_⟩
  rcases (hg.view h n).mp hn with hn | ⟨rfl, rfl⟩
  · exact hlt h n hn hborn
  · -- the new node is of the present generation, which no save is ahead of
    rw [hg.born] at hborn
    exact absurd hborn (Nat.not_lt_of_le hle)

theorem Covers.prune (hs : s.Covers f) (view : ∀ h n, g.node h = .ok n → f.node h = .ok n)
    (arena : g.arena = f.arena) (gen : f.generation ≤ g.generation) : s.Covers g := by
  intro ha
  obtain ⟨hle, hlt⟩ := hs (ha.trans arena)
  exact ⟨Nat.le_trans hle gen, fun h n hn => hlt h n (view h n hn)⟩

end Save

namespace Forest

variable {f g : Forest} {s : Save}

theorem restore_frame (hr : f.restore s = .ok g) :
    s.arena = f.arena ∧ s.generation = f.generation ∧ g.arena = f.arena ∧
      g.generation = f.generation ∧ g.settings = f.settings := by
  obtain ⟨hs, entries, -, rfl⟩ := restore_eq_ok hr
  simp only [isStale, Bool.or_eq_false_iff, bne_eq_false_iff_eq] at hs
  exact ⟨hs.1.1.1, hs.1.1.2, rfl, rfl, rfl⟩

end Forest

namespace Tended

open Forest

/-- The forest is sound, its arena number is used up, and so are those of the saves, which cover
the forest. -/
structure Sound (t : Tended) : Prop where
  forest : t.forest.Sound
  fresh : t.forest.arena < t.plot.spare
  saves : ∀ s ∈ t.saves, s.arena < t.plot.spare ∧ s.Covers t.forest

/-- The node is held and of an earlier generation, or its arena is given up for good. -/
def Keeps (t : Tended) (h : Handle) (n : Node) : Prop :=
  (t.forest.node h = .ok n ∧ n.born < t.forest.generation) ∨
    (h.arena ≠ t.forest.arena ∧ h.arena < t.plot.spare)

variable {strays : Bool} {t u : Tended} {h : Handle} {n : Node}

theorem sound_start {arena spare : Nat} (settings : Settings) (hlt : arena < spare) :
    Sound ⟨⟨{ arena, settings }, spare⟩, []⟩ :=
  ⟨sound_empty arena settings, hlt, by simp⟩

theorem Sound.advance (ht : t.Sound) : (t.put t.forest.advance).Sound where
  forest := ht.forest.advance
  fresh := ht.fresh
  saves s hs := ⟨(ht.saves s hs).1, (ht.saves s hs).2.prune (fun _ _ hn => hn) rfl (Nat.le_succ _)⟩

theorem Sound.restore (ht : t.Sound) {s : Save} {f : Forest} (hr : t.forest.restore s = .ok f) :
    (t.put f).Sound := by
  obtain ⟨-, -, harena, hgen, -⟩ := restore_frame hr
  refine ⟨ht.forest.restore hr, by simpa [harena] using ht.fresh, fun s' hs' => ?_⟩
  refine ⟨(ht.saves s' hs').1, (ht.saves s' hs').2.prune (fun h n hn => ?_) harena ?_⟩
  · exact ((node_restore hr h n).mp hn).1
  · exact Nat.le_of_eq hgen.symm

theorem Sound.forget (ht : t.Sound) {saves : List Save} (h : ∀ s ∈ saves, s ∈ t.saves) :
    Sound ⟨t.plot, saves⟩ :=
  ⟨ht.forest, ht.fresh, fun s hs => ht.saves s (h s hs)⟩

theorem Sound.step (hs : Step strays t u) (ht : t.Sound) : u.Sound := by
  cases hs with
  | build hb =>
    obtain ⟨m, hg, -, -⟩ := build_cases hb
    refine ⟨ht.forest.build hb, by simpa [hg.arena] using ht.fresh, fun s hs => ?_⟩
    exact ⟨(ht.saves s hs).1, (ht.saves s hs).2.grow hg⟩
  | advance => exact ht.advance
  | @clear arena hle =>
    refine ⟨sound_empty _ _, Nat.lt_succ_self arena, fun s hs => ?_⟩
    have hlt := (ht.saves s hs).1
    refine ⟨Nat.lt_succ_of_lt (Nat.lt_of_lt_of_le hlt hle), fun ha => ?_⟩
    exact absurd ha (Nat.ne_of_lt (Nat.lt_of_lt_of_le hlt hle))
  | save =>
    refine ⟨ht.forest, ht.fresh, fun s hs => ?_⟩
    rcases List.mem_cons.mp hs with rfl | hs
    · exact ⟨ht.fresh, Save.covers_self _⟩
    · exact ht.saves s hs
  | @restore later earlier s f hsaves hr =>
    refine (ht.restore hr).forget fun s' hs' => ?_
    rw [saves_put, hsaves]
    cases strays with
    | false => exact List.mem_append_right _ hs'
    | true => exact hs'

theorem Run.sound (hr : Run strays t u) (ht : t.Sound) : u.Sound :=
  hr.keeps Sound.step ht

/-- The settings are those of the first forest. -/
theorem Run.settings (hr : Run strays t u) : u.forest.settings = t.forest.settings := by
  refine hr.keeps (P := fun u => u.forest.settings = t.forest.settings) ?_ rfl
  intro u v hs hu
  cases hs with
  | build hb =>
    obtain ⟨m, hg, -, -⟩ := build_cases hb
    exact hg.settings.trans hu
  | advance => exact hu
  | clear _ => exact hu
  | save => exact hu
  | restore _ hr => exact (restore_frame hr).2.2.2.2.trans hu

theorem Keeps.restore (hk : t.Keeps h n) {s : Save} {f : Forest}
    (hr : t.forest.restore s = .ok f)
    (covers : t.forest.node h = .ok n → n.born < s.generation → h.index < s.nodes) :
    (t.put f).Keeps h n := by
  obtain ⟨-, hsgen, harena, hgen, -⟩ := restore_frame hr
  rcases hk with ⟨hn, hborn⟩ | hlost
  · refine Or.inl ⟨(node_restore hr h n).mpr ⟨hn, covers hn (hsgen ▸ hborn)⟩, ?_⟩
    rw [forest_put, hgen]
    exact hborn
  · exact Or.inr (by simpa [harena] using hlost)

theorem Keeps.step (hs : Step strays t u) (ht : t.Sound) (hk : t.Keeps h n) : u.Keeps h n := by
  cases hs with
  | build hb =>
    obtain ⟨m, hg, -, -⟩ := build_cases hb
    rcases hk with ⟨hn, hborn⟩ | hlost
    · exact Or.inl ⟨(hg.view h n).mpr (Or.inl hn), hg.generation ▸ hborn⟩
    · exact Or.inr (by simpa [hg.arena] using hlost)
  | advance =>
    rcases hk with ⟨hn, hborn⟩ | hlost
    · exact Or.inl ⟨hn, Nat.lt_succ_of_lt hborn⟩
    · exact Or.inr hlost
  | clear hle =>
    have hlt : h.arena < t.plot.spare := by
      rcases hk with ⟨hn, -⟩ | hlost
      · exact ((node_eq_ok_iff_index _ h n).mp hn).1 ▸ ht.fresh
      · exact hlost.2
    exact Or.inr ⟨Nat.ne_of_lt (Nat.lt_of_lt_of_le hlt hle),
      Nat.lt_succ_of_lt (Nat.lt_of_lt_of_le hlt hle)⟩
  | save => exact hk
  | @restore later earlier s f hsaves hr =>
    refine hk.restore hr ?_
    have hs := ht.saves s (by rw [hsaves]; simp)
    exact fun hn => (hs.2 (restore_frame hr).1).2 h n hn

/-- **A node of an earlier generation stays** through any run, or its name is void. -/
theorem Run.keeps_node (hr : Run strays t u) (ht : t.Sound) (hk : t.Keeps h n) :
    u.Keeps h n := by
  induction hr with
  | refl => exact hk
  | tail hrun hs ih => exact Keeps.step hs (hrun.sound ht) ih

/-- What the name of a kept node stands for, if anything. -/
theorem Keeps.eq_of_node (hk : t.Keeps h n) {m : Node} (hm : t.forest.node h = .ok m) :
    m = n := by
  rcases hk with ⟨hn, -⟩ | hlost
  · rw [hn] at hm
    exact (Except.ok.inj hm).symm
  · exact absurd ((node_eq_ok_iff_index _ h m).mp hm).1 hlost.1

end Tended

end TreePatch
