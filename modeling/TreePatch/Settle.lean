import TreePatch.Scaffold

/-! Making the old and the new scaffold agree. Where they part, the subtrees kept there are
uprooted: they are removed from the old document and added to the new one. Each round
uproots a handle of the trees that was not uprooted before, so the rounds end. -/

namespace TreePatch

namespace Scaffold

theorem mem_keptHandles (s : Scaffold) (h : Handle) : h ∈ s.keptHandles ↔ Piece.kept h ∈ s := by
  simp only [keptHandles, List.mem_filterMap]
  constructor
  · rintro ⟨p, hp, he⟩
    cases p with
    | kept g => simp only [Piece.kept?, Option.some.injEq] at he; exact he ▸ hp
    | _ => simp [Piece.kept?] at he
  · intro hp
    exact ⟨_, hp, rfl⟩

theorem mem_of_mem_keptAround (s : Scaffold) (i : Nat) (h : Handle) (hm : h ∈ s.keptAround i) :
    Piece.kept h ∈ s := by
  unfold keptAround at hm
  split at hm
  · exact List.mem_of_mem_take (List.mem_of_mem_drop ((mem_keptHandles _ h).mp hm))
  · simp at hm

theorem mem_of_mem_keptAt (s : Scaffold) (i : Nat) (h : Handle) (hm : h ∈ s.keptAt i) :
    Piece.kept h ∈ s := by
  simp only [keptAt, Option.mem_toList, Option.bind_eq_some_iff] at hm
  obtain ⟨p, hp, he⟩ := hm
  cases p with
  | kept g =>
    simp only [Piece.kept?, Option.some.injEq] at he
    exact he ▸ List.mem_of_getElem? hp
  | _ => simp [Piece.kept?] at he

theorem mem_of_mem_displaced (a b : Scaffold) (h : Handle) (hm : h ∈ displaced a b) :
    Piece.kept h ∈ a ∨ Piece.kept h ∈ b := by
  unfold displaced at hm
  split at hm
  · unfold displacedAt at hm
    split at hm
    · rcases List.mem_append.mp hm with hm | hm
      · exact Or.inl (mem_of_mem_keptAround _ _ _ hm)
      · exact Or.inr (mem_of_mem_keptAround _ _ _ hm)
    · rcases List.mem_append.mp hm with hm | hm
      · exact Or.inl (mem_of_mem_keptAt _ _ _ hm)
      · exact Or.inr (mem_of_mem_keptAt _ _ _ hm)
  · simp at hm

theorem mem_ofSegments (segments : List Segment) (h : Handle) :
    Piece.kept h ∈ ofSegments segments ↔ ∃ n, Segment.kept n ∈ segments ∧ n.handle = h := by
  simp only [ofSegments, List.mem_filterMap]
  constructor
  · rintro ⟨s, hs, he⟩
    cases s with
    | kept n => simp only [Segment.piece?, Option.some.injEq, Piece.kept.injEq] at he; exact ⟨n, hs, he⟩
    | _ => simp [Segment.piece?] at he
  · rintro ⟨n, hn, rfl⟩
    exact ⟨_, hn, rfl⟩

end Scaffold

theorem handle_mem_handles (n : Node) : n.handle ∈ n.handles := by
  cases n <;> simp [Node.handles, Node.handle, Node.tag]

mutual

theorem kept_mem_survey (s : Sieve) (n m : Node) (h : Segment.kept m ∈ survey s n) :
    m.handle ∈ n.handles ∧ s.keeps m = true := by
  cases n with
  | leaf tag text =>
    unfold survey at h
    split at h
    · simp only [List.mem_singleton, Segment.kept.injEq] at h
      subst h
      exact ⟨handle_mem_handles _, by assumption⟩
    · simp at h
  | branch tag kind children =>
    unfold survey at h
    split at h
    · simp only [List.mem_singleton, Segment.kept.injEq] at h
      subst h
      exact ⟨handle_mem_handles _, by assumption⟩
    · split at h
      · simp at h
      · simp only at h
        split at h
        · simp only [List.cons_append, List.mem_cons, List.mem_append, reduceCtorEq,
            List.not_mem_nil, or_false, false_or] at h
          have := kept_mem_surveyAmong s children m h
          exact ⟨by simp [Node.handles, this.1], this.2⟩
        · simp at h

theorem kept_mem_surveyAmong (s : Sieve) (ns : List Node) (m : Node)
    (h : Segment.kept m ∈ surveyAmong s ns) :
    m.handle ∈ Node.handlesAmong ns ∧ s.keeps m = true := by
  cases ns with
  | nil => simp [surveyAmong] at h
  | cons n ns =>
    simp only [surveyAmong, List.mem_append] at h
    rcases h with h | h
    · have := kept_mem_survey s n m h
      exact ⟨by simp [Node.handlesAmong, this.1], this.2⟩
    · have := kept_mem_surveyAmong s ns m h
      exact ⟨by simp [Node.handlesAmong, this.1], this.2⟩

end

theorem kept_mem_surveyRoot (s : Sieve) (root m : Node) (h : Segment.kept m ∈ surveyRoot s root) :
    m.handle ∈ root.handles ∧ s.keeps m = true := by
  unfold surveyRoot at h
  split at h
  · simp only [List.mem_singleton, Segment.kept.injEq] at h
    subst h
    exact ⟨handle_mem_handles _, by assumption⟩
  · split at h
    · simp at h
    · rw [surveyAmongOnto_eq, List.append_nil] at h
      have := kept_mem_surveyAmong s _ m h
      exact ⟨by simp [Node.handles, this.1], this.2⟩

/-- The handles of both trees that are not uprooted. -/
def rooted (old new : Node) (uprooted : Handle → Bool) : List Handle :=
  (old.handles ++ new.handles).filter fun h => !uprooted h

theorem rooted_length_lt (old new : Node) (uprooted : Std.TreeSet Handle) (fresh : List Handle)
    (h : Handle) (hf : h ∈ fresh) (hr : h ∈ rooted old new uprooted.contains) :
    (rooted old new (uprooted.insertMany fresh).contains).length <
      (rooted old new uprooted.contains).length := by
  have he : rooted old new (uprooted.insertMany fresh).contains =
      (rooted old new uprooted.contains).filter fun h => !fresh.contains h := by
    simp only [rooted, List.filter_filter]
    congr 1
    funext g
    simp [Std.TreeSet.contains_insertMany_list, Bool.and_comm]
  rw [he]
  rcases Nat.lt_or_eq_of_le (List.length_filter_le (fun h => !fresh.contains h)
    (rooted old new uprooted.contains)) with hl | hl
  · exact hl
  · have := List.length_filter_eq_length_iff.mp hl h hr
    simp [hf] at this

def surveyOld (claimed : Handle → Generation) (uprooted : Handle → Bool) (old : Node) :
    List Segment :=
  surveyRoot (.standing old claimed uprooted) old

def surveyNew (uprooted : Handle → Bool) (new : Node) : List Segment :=
  surveyRoot (.reused new uprooted) new

/-- The handles to uproot next. -/
def uprootNext (claimed : Handle → Generation) (old new : Node) (uprooted : Handle → Bool) :
    List Handle :=
  Scaffold.displaced (.ofSegments (surveyOld claimed uprooted old))
    (.ofSegments (surveyNew uprooted new))

theorem mem_rooted_of_mem_uprootNext (claimed : Handle → Generation) (old new : Node)
    (uprooted : Handle → Bool) (h : Handle) (hm : h ∈ uprootNext claimed old new uprooted) :
    h ∈ rooted old new uprooted := by
  simp only [rooted, List.mem_filter, List.mem_append]
  rcases Scaffold.mem_of_mem_displaced _ _ h hm with hm | hm <;>
    obtain ⟨n, hn, rfl⟩ := (Scaffold.mem_ofSegments _ h).mp hm
  · have := kept_mem_surveyRoot _ _ _ hn
    simp only [Sieve.standing, Bool.and_eq_true] at this
    exact ⟨Or.inl this.1, this.2.2⟩
  · have := kept_mem_surveyRoot _ _ _ hn
    simp only [Sieve.reused, Bool.and_eq_true] at this
    exact ⟨Or.inr this.1, this.2.2⟩

/-- Two surveys whose scaffolds agree, and the handles uprooted for it. -/
structure Settlement where
  old : List Segment
  new : List Segment
  uprooted : Std.TreeSet Handle
  deriving Repr

def settleFrom (claimed : Handle → Generation) (old new : Node) (uprooted : Std.TreeSet Handle) :
    Settlement :=
  if uprootNext claimed old new uprooted.contains = [] then
    ⟨surveyOld claimed uprooted.contains old, surveyNew uprooted.contains new, uprooted⟩
  else settleFrom claimed old new
    (uprooted.insertMany (uprootNext claimed old new uprooted.contains))
termination_by (rooted old new uprooted.contains).length
decreasing_by
  rename_i hne
  obtain ⟨h, rest, he⟩ := List.exists_cons_of_ne_nil hne
  have hm : h ∈ uprootNext claimed old new uprooted.contains := he ▸ List.mem_cons_self
  exact rooted_length_lt old new uprooted _ h hm
    (mem_rooted_of_mem_uprootNext claimed old new uprooted.contains h hm)

def settle (claimed : Handle → Generation) (old new : Node) : Settlement :=
  settleFrom claimed old new ∅

end TreePatch
