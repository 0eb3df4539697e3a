import Mathlib.Data.Finset.Card
import TreePatch.Proofs.Nesting

/-! How long it takes to settle. A round uproots only what stands, and always something, so
there are no more rounds than handles in both trees (`settle_ends`). -/

namespace TreePatch

open Scaffold

/-- What is left of both trees once some handles are uprooted. -/
def oldScaffold (claimed : Handle → Generation) (old : Node) (uprooted : Std.TreeSet Handle) :
    Scaffold :=
  ofSegments (surveyOld claimed uprooted.contains old)

def newScaffold (new : Node) (uprooted : Std.TreeSet Handle) : Scaffold :=
  ofSegments (surveyNew uprooted.contains new)

/-- The rounds one by one: it ends where the scaffolds do not part, and else goes on with what is
displaced there. Nothing if it takes more rounds than allowed. -/
def settleWithin (claimed : Handle → Generation) (old new : Node) (rounds : Nat)
    (uprooted : Std.TreeSet Handle) : Option Settlement :=
  match firstDifference (oldScaffold claimed old uprooted) (newScaffold new uprooted) with
  | none =>
    some ⟨surveyOld claimed uprooted.contains old, surveyNew uprooted.contains new, uprooted⟩
  | some i => match rounds with
    | 0 => none
    | rounds + 1 => settleWithin claimed old new rounds
        (uprooted.insertMany
          (displacedAt (oldScaffold claimed old uprooted) (newScaffold new uprooted) i))

variable {claimed : Handle → Generation} {old new : Node} {uprooted : Std.TreeSet Handle}

theorem nested_oldScaffold (claimed : Handle → Generation) (old : Node)
    (uprooted : Std.TreeSet Handle) : Nested (oldScaffold claimed old uprooted) :=
  nested_surveyRoot _ old

theorem nested_newScaffold (new : Node) (uprooted : Std.TreeSet Handle) :
    Nested (newScaffold new uprooted) :=
  nested_surveyRoot _ new

/-- Where the scaffolds part, the handles to uproot are those displaced there. -/
theorem uprootNext_of_firstDifference {i : Nat}
    (h : firstDifference (oldScaffold claimed old uprooted) (newScaffold new uprooted) = some i) :
    uprootNext claimed old new uprooted.contains =
      displacedAt (oldScaffold claimed old uprooted) (newScaffold new uprooted) i := by
  change displaced (oldScaffold claimed old uprooted) (newScaffold new uprooted) = _
  simp only [displaced, h]

theorem uprootNext_eq_nil_iff :
    uprootNext claimed old new uprooted.contains = [] ↔
      firstDifference (oldScaffold claimed old uprooted) (newScaffold new uprooted) = none := by
  rw [firstDifference_eq_none_iff]
  exact displaced_eq_nil_iff (nested_oldScaffold claimed old uprooted)
    (nested_newScaffold new uprooted)

/-- Only what stands in one of the trees is uprooted. -/
theorem fresh_of_mem_uprootNext {h : Handle}
    (hm : h ∈ uprootNext claimed old new uprooted.contains) :
    h ∉ uprooted ∧ (h ∈ old.handles ∨ h ∈ new.handles) := by
  have hr := mem_rooted_of_mem_uprootNext claimed old new uprooted.contains h hm
  simp only [rooted, List.mem_filter, List.mem_append] at hr
  exact ⟨fun hu => by simp [Std.TreeSet.contains_iff_mem.mpr hu] at hr, hr.1⟩

theorem size_lt_size_insertMany {h : Handle} (rest : List Handle) (hu : h ∉ uprooted) :
    uprooted.size < (uprooted.insertMany (h :: rest)).size := by
  have hinsert : (uprooted.insert h).size = uprooted.size + 1 := by
    rw [Std.TreeSet.size_insert, if_neg (mt Std.TreeSet.contains_iff_mem.mp hu)]
  calc uprooted.size < (uprooted.insert h).size := by omega
    _ ≤ _ := by
      rw [Std.TreeSet.insertMany_cons]
      exact Std.TreeSet.size_le_size_insertMany_list

/-- The rounds end with the settlement, and each uproots at least one more handle. -/
theorem settleWithin_eq (claimed : Handle → Generation) (old new : Node)
    (uprooted : Std.TreeSet Handle) :
    ∃ rounds, uprooted.size + rounds ≤ (settleFrom claimed old new uprooted).uprooted.size ∧
      ∀ limit, settleWithin claimed old new limit uprooted =
        if rounds ≤ limit then some (settleFrom claimed old new uprooted) else none := by
  fun_induction settleFrom claimed old new uprooted with
  | case1 uprooted hnil =>
    refine ⟨0, Nat.le_refl _, fun limit => ?_⟩
    rw [settleWithin.eq_def, uprootNext_eq_nil_iff.mp hnil]
    simp
  | case2 uprooted hne ih =>
    obtain ⟨rounds, hsize, hlimit⟩ := ih
    obtain ⟨i, hi⟩ := Option.ne_none_iff_exists'.mp (mt uprootNext_eq_nil_iff.mpr hne)
    refine ⟨rounds + 1, ?_, fun limit => ?_⟩
    · obtain ⟨h, rest, he⟩ := List.exists_cons_of_ne_nil hne
      have hu := (fresh_of_mem_uprootNext (he ▸ List.mem_cons_self)).1
      have := size_lt_size_insertMany rest hu
      rw [he] at hsize ⊢
      omega
    · rw [settleWithin.eq_def]
      simp only [hi]
      cases limit with
      | zero => simp
      | succ limit =>
        simp only [← uprootNext_of_firstDifference hi, hlimit, Nat.add_le_add_iff_right]

/-- What has been uprooted in the end was so before or stands in one of the trees. -/
theorem mem_handles_of_mem_uprooted (claimed : Handle → Generation) (old new : Node)
    (uprooted : Std.TreeSet Handle) (hstart : ∀ h ∈ uprooted, h ∈ old.handles ∨ h ∈ new.handles) :
    ∀ h ∈ (settleFrom claimed old new uprooted).uprooted, h ∈ old.handles ∨ h ∈ new.handles := by
  fun_induction settleFrom claimed old new uprooted with
  | case1 uprooted _ => exact hstart
  | case2 uprooted _ ih =>
    refine ih fun h hm => ?_
    rcases Std.TreeSet.mem_insertMany_list.mp hm with hm | hm
    · exact hstart h hm
    · exact (fresh_of_mem_uprootNext (List.contains_iff_mem.mp hm)).2

theorem size_le_card {hs : List Handle} (h : ∀ k ∈ uprooted, k ∈ hs) :
    uprooted.size ≤ hs.toFinset.card := by
  have hnodup : uprooted.toList.Nodup := by
    refine Std.TreeSet.distinct_toList.imp fun hne he => hne ?_
    rw [he]
    exact Std.ReflCmp.compare_self
  rw [← Std.TreeSet.length_toList, ← List.toFinset_card_of_nodup hnodup]
  refine Finset.card_le_card fun k hk => ?_
  rw [List.mem_toFinset, Std.TreeSet.mem_toList] at hk
  exact List.mem_toFinset.mpr (h k hk)

/-- Nothing is left of a tree of which every handle is uprooted. -/
theorem surveyRoot_eq_nil {s : Sieve} {root : Node}
    (hs : ∀ n, s.keeps n = true → n.handle ∉ root.handles) :
    ofSegments (surveyRoot s root) = [] := by
  refine (nested_surveyRoot s root).eq_nil (List.eq_nil_iff_forall_not_mem.mpr fun h hm => ?_)
  obtain ⟨n, hn, rfl⟩ := (mem_ofSegments _ h).mp ((mem_keptHandles _ h).mp hm)
  obtain ⟨hin, hk⟩ := kept_mem_surveyRoot s root n hn
  exact hs n hk hin

/-- **The rounds end.** Whatever is uprooted, while the scaffolds part there is more to uproot, none
of it uprooted before and all of it in the trees. So after some number of rounds, and no more than
there are handles to uproot, the scaffolds agree. With every handle uprooted both are empty. -/
theorem settle_ends (claimed : Handle → Generation) (old new : Node) :
    (∀ (uprooted : Std.TreeSet Handle) (i : Nat),
      firstDifference (oldScaffold claimed old uprooted) (newScaffold new uprooted) = some i →
      displacedAt (oldScaffold claimed old uprooted) (newScaffold new uprooted) i ≠ [] ∧
      ∀ h ∈ displacedAt (oldScaffold claimed old uprooted) (newScaffold new uprooted) i,
        h ∉ uprooted ∧ (h ∈ old.handles ∨ h ∈ new.handles)) ∧
    (∃ rounds,
      (∀ limit, settleWithin claimed old new limit ∅ =
        if rounds ≤ limit then some (settle claimed old new) else none) ∧
      rounds ≤ (settle claimed old new).uprooted.size ∧
      (settle claimed old new).uprooted.size ≤ (old.handles ++ new.handles).toFinset.card) ∧
    ofSegments (settle claimed old new).old = ofSegments (settle claimed old new).new ∧
    ∀ uprooted : Std.TreeSet Handle, (∀ h ∈ old.handles ++ new.handles, h ∈ uprooted) →
      oldScaffold claimed old uprooted = [] ∧ newScaffold new uprooted = [] := by
  refine ⟨fun uprooted i hi => ?_, ?_, settle_agrees claimed old new, fun uprooted hall => ?_⟩
  · rw [← uprootNext_of_firstDifference hi]
    refine ⟨fun hnil => ?_, fun h hm => fresh_of_mem_uprootNext hm⟩
    rw [uprootNext_eq_nil_iff.mp hnil] at hi
    cases hi
  · obtain ⟨rounds, hsize, hlimit⟩ := settleWithin_eq claimed old new ∅
    rw [Std.TreeSet.size_emptyc, Nat.zero_add] at hsize
    have hin := mem_handles_of_mem_uprooted claimed old new ∅ (by simp)
    exact ⟨rounds, hlimit, hsize, size_le_card fun h hm => List.mem_append.mpr (hin h hm)⟩
  · have hcontains : ∀ h ∈ old.handles ++ new.handles, uprooted.contains h = true :=
      fun h hm => Std.TreeSet.contains_iff_mem.mpr (hall h hm)
    constructor
    · refine surveyRoot_eq_nil fun n hk hm => ?_
      simp [Sieve.standing, hcontains n.handle (List.mem_append_left _ hm)] at hk
    · refine surveyRoot_eq_nil fun n hk hm => ?_
      simp [Sieve.reused, hcontains n.handle (List.mem_append_right _ hm)] at hk

end TreePatch
