import TreePatch.Proofs.Copies
import TreePatch.Proofs.Locality

/-! What lies on a path and below it. A node stands inside each node on the path to it, every
position inside a node is a text position or a boundary of some node there, and of two nodes at one
position one is below the other (`Node.prefix_of_common`). -/

namespace TreePatch
namespace Node

variable {n m c : Node} {ns : List Node} {position start stop x i : Nat} {path : List Nat}

/-- The nodes a path leads through, both ends among them. -/
def onPath : Node → List Nat → List Node
  | n, [] => [n]
  | n, i :: path => n :: (n.children[i]?.elim [] fun c => c.onPath path)

/-- The same from a row of siblings; the path begins with the number of one of them. -/
def onPathAmong (ns : List Node) : List Nat → List Node
  | [] => []
  | i :: path => ns[i]?.elim [] fun n => n.onPath path

theorem onPath_eq (n : Node) (path : List Nat) :
    n.onPath path = n :: onPathAmong n.children path := by
  cases path <;> rfl

theorem onPathAmong_cons (h : ns[i]? = some n) : onPathAmong ns (i :: path) = n.onPath path := by
  rw [onPathAmong, h]
  rfl

theorem locate_of_ne_nil (root : Node) (h : path ≠ []) :
    root.locate path = followAmong 0 root.children path := by
  cases path with
  | nil => exact absurd rfl h
  | cons i path => rfl

theorem ne_nil_of_followAmong (h : followAmong position ns path = some (n, start)) :
    path ≠ [] := by
  rintro rfl
  cases h

/-- What a path leads to below the children of a root stands there in the root. -/
theorem exists_followAmong_iff_locate {root : Node} {P : List Nat → Node → Nat → Prop} :
    (∃ path n start, followAmong 0 root.children path = some (n, start) ∧ P path n start) ↔
      ∃ path n start, path ≠ [] ∧ root.locate path = some (n, start) ∧ P path n start := by
  constructor
  · rintro ⟨path, n, start, hfollow, h⟩
    have hpath := ne_nil_of_followAmong hfollow
    exact ⟨path, n, start, hpath, (locate_of_ne_nil root hpath).trans hfollow, h⟩
  · rintro ⟨path, n, start, hpath, hlocate, h⟩
    exact ⟨path, n, start, (locate_of_ne_nil root hpath).symm.trans hlocate, h⟩

/-! ## Paths put together -/

theorem follow_append (n : Node) (position : Nat) (a b : List Nat) :
    n.follow position (a ++ b) =
      (n.follow position a).bind fun found => found.1.follow found.2 b := by
  induction a generalizing n position with
  | nil => rfl
  | cons i a ih => simp only [List.cons_append, follow, ih, Option.bind_assoc]

theorem followAmong_append (position : Nat) (ns : List Node) {a : List Nat} (ha : a ≠ [])
    (b : List Nat) :
    followAmong position ns (a ++ b) =
      (followAmong position ns a).bind fun found => found.1.follow found.2 b := by
  cases a with
  | nil => exact absurd rfl ha
  | cons i a => simp only [List.cons_append, followAmong, follow_append, Option.bind_assoc]

theorem followAmong_succ (position : Nat) (n : Node) (ns : List Node) (i : Nat)
    (path : List Nat) :
    followAmong position (n :: ns) ((i + 1) :: path) =
      followAmong (position + n.span) ns (i :: path) := by
  have hspan : spanAmong ((n :: ns).take (i + 1)) = n.span + spanAmong (ns.take i) := rfl
  simp only [followAmong, List.getElem?_cons_succ, hspan, Nat.add_assoc]

theorem mem_nodes_of_follow (h : n.follow position path = some (m, start)) : m ∈ n.nodes := by
  induction path generalizing n position with
  | nil =>
    obtain ⟨rfl, rfl⟩ := Prod.mk.inj (Option.some.inj h)
    exact mem_nodes_self n
  | cons i path ih =>
    rw [follow_cons] at h
    obtain ⟨c, hc, hfollow⟩ := followAmong_cons_eq_some_iff.mp h
    exact mem_nodes_of_below (mem_nodesAmong.mpr ⟨c, List.mem_of_getElem? hc, ih hfollow⟩)

theorem mem_nodes_iff : m ∈ n.nodes ↔ m = n ∨ m ∈ nodesAmong n.children := by
  cases n with
  | leaf tag text => exact ⟨fun h => Or.inl (List.mem_singleton.mp h), fun h =>
      List.mem_singleton.mpr (h.resolve_right List.not_mem_nil)⟩
  | branch tag kind children => exact List.mem_cons

mutual

theorem mem_nodes_trans (n : Node) (hm : m ∈ n.nodes) (hc : c ∈ m.nodes) : c ∈ n.nodes := by
  cases n with
  | leaf tag text =>
    obtain rfl := List.mem_singleton.mp hm
    exact hc
  | branch tag kind children =>
    rcases List.mem_cons.mp hm with rfl | hm
    · exact hc
    · exact List.mem_cons_of_mem _ (mem_nodesAmong_trans children hm hc)

theorem mem_nodesAmong_trans (ns : List Node) (hm : m ∈ nodesAmong ns) (hc : c ∈ m.nodes) :
    c ∈ nodesAmong ns := by
  cases ns with
  | nil => cases hm
  | cons n ns =>
    rcases List.mem_append.mp hm with hm | hm
    · exact List.mem_append_left _ (mem_nodes_trans n hm hc)
    · exact List.mem_append_right _ (mem_nodesAmong_trans ns hm hc)

end

/-- The node a path leads to is the last one on it. -/
theorem mem_onPathAmong_of_followAmong (h : followAmong position ns path = some (n, start)) :
    n ∈ onPathAmong ns path := by
  induction path generalizing ns position with
  | nil => cases h
  | cons i path ih =>
    obtain ⟨c, hc, hfollow⟩ := followAmong_cons_eq_some_iff.mp h
    rw [onPathAmong_cons hc, onPath_eq]
    cases path with
    | nil =>
      obtain ⟨rfl, -⟩ := Prod.mk.inj (Option.some.inj hfollow)
      exact List.mem_cons_self
    | cons j path => exact List.mem_cons_of_mem _ (ih hfollow)

theorem mem_nodes_of_mem_onPath (h : m ∈ n.onPath path) : m ∈ n.nodes := by
  induction path generalizing n with
  | nil =>
    obtain rfl := List.mem_singleton.mp h
    exact mem_nodes_self m
  | cons i path ih =>
    rcases List.mem_cons.mp h with rfl | h
    · exact mem_nodes_self m
    · cases hc : n.children[i]? with
      | none =>
        rw [hc] at h
        cases h
      | some c =>
        rw [hc] at h
        exact mem_nodes_of_below (mem_nodesAmong.mpr ⟨c, List.mem_of_getElem? hc, ih h⟩)

/-- Each node on a path has the node in it that the path leads to. -/
theorem mem_nodes_of_mem_onPathAmong (h : followAmong position ns path = some (n, start))
    (hm : m ∈ onPathAmong ns path) : m ∈ nodesAmong ns ∧ n ∈ m.nodes := by
  induction path generalizing ns position with
  | nil => cases h
  | cons i path ih =>
    obtain ⟨c, hc, hfollow⟩ := followAmong_cons_eq_some_iff.mp h
    have hmem := List.mem_of_getElem? hc
    rw [onPathAmong_cons hc, onPath_eq] at hm
    rcases List.mem_cons.mp hm with rfl | hm
    · exact ⟨mem_nodesAmong_of_mem hmem, mem_nodes_of_follow hfollow⟩
    · cases path with
      | nil => cases hm
      | cons j path =>
        obtain ⟨hbelow, hn⟩ := ih hfollow hm
        exact ⟨mem_nodesAmong.mpr ⟨c, hmem, mem_nodes_of_below hbelow⟩, hn⟩

/-- What is on a path put together from two is on the first or in the node it leads to. -/
theorem mem_onPathAmong_append {a b : List Nat}
    (ha : followAmong position ns a = some (n, start)) (hm : m ∈ onPathAmong ns (a ++ b)) :
    m ∈ onPathAmong ns a ∨ m ∈ n.nodes := by
  induction a generalizing ns position with
  | nil => cases ha
  | cons i a ih =>
    obtain ⟨c, hc, hfollow⟩ := followAmong_cons_eq_some_iff.mp ha
    rw [List.cons_append, onPathAmong_cons hc] at hm
    cases a with
    | nil =>
      obtain ⟨rfl, -⟩ := Prod.mk.inj (Option.some.inj hfollow)
      exact Or.inr (mem_nodes_of_mem_onPath hm)
    | cons j a =>
      rw [onPathAmong_cons hc, onPath_eq, List.mem_cons]
      rw [onPath_eq, List.mem_cons] at hm
      rcases hm with rfl | hm
      · exact Or.inl (Or.inl rfl)
      · exact (ih hfollow hm).imp_left Or.inr

/-! ## Positions inside -/

theorem spanAmong_split (h : ns[i]? = some n) :
    spanAmong ns = spanAmong (ns.take i) + (n.span + spanAmong (ns.drop (i + 1))) := by
  calc spanAmong ns = spanAmong (ns.take i ++ n :: ns.drop (i + 1)) :=
        congrArg _ (eq_take_append_drop h)
    _ = _ := spanAmong_append _ _

/-- A path leads to a node inside the one it starts from, between the boundaries of that. -/
theorem within_of_follow (hn : n.Sized) (hs : AllSized n.children)
    (h : n.follow position path = some (m, start)) :
    position ≤ start ∧ start + m.span ≤ position + n.span ∧
      (path ≠ [] → position < start ∧ start + m.span < position + n.span) := by
  induction path generalizing n position with
  | nil =>
    obtain ⟨rfl, rfl⟩ := Prod.mk.inj (Option.some.inj h)
    exact ⟨Nat.le_refl _, Nat.le_refl _, fun hne => absurd rfl hne⟩
  | cons i path ih =>
    rw [follow_cons] at h
    obtain ⟨c, hc, hfollow⟩ := followAmong_cons_eq_some_iff.mp h
    cases n with
    | leaf tag text => cases hc
    | branch tag kind children =>
      obtain ⟨hcs, hcc⟩ := hs.child (List.mem_of_getElem? hc)
      obtain ⟨hle, hge, -⟩ := ih hcs hcc hfollow
      have hspan := span_branch hn hs
      have hsplit : spanAmong children = _ := spanAmong_split hc
      simp only [Node.children] at hle hge
      exact ⟨by omega, by omega, fun _ => ⟨by omega, by omega⟩⟩

theorem innerSpan_of_branch (hn : n.Sized) (hs : AllSized n.children)
    (branch : n.layer.isLeaf = false) : n.innerSpan = spanAmong n.children := by
  cases n with
  | leaf tag text => cases branch
  | branch tag kind children =>
    have hspan : tag.span = spanAmong children + 2 := span_branch hn hs
    rw [innerSpan, hspan, Nat.add_sub_cancel, Node.children]

theorem sized_of_followAmong (hs : AllSized ns)
    (h : followAmong position ns path = some (n, start)) : n.Sized ∧ AllSized n.children := by
  obtain ⟨hn, -⟩ := stands_of_followAmong hs h
  exact ⟨hs n hn, fun m hm => hs m (mem_nodesAmong_trans ns hn (mem_nodes_of_below hm))⟩

/-- The position is one of the text of a leaf, or a boundary of a branch. -/
def OwnsAt (n : Node) (start x : Nat) : Prop :=
  if n.layer.isLeaf then start ≤ x ∧ x < start + n.span else x = start ∨ x + 1 = start + n.span

theorem OwnsAt.at_end (branch : n.layer.isLeaf = false) (h : n.OwnsAt start x) :
    x = start ∨ x + 1 = start + n.span := by
  rw [OwnsAt, branch] at h
  exact h

theorem OwnsAt.within (hn : n.Sized) (hs : AllSized n.children) (h : n.OwnsAt start x) :
    start ≤ x ∧ x < start + n.span := by
  cases n with
  | leaf tag text => exact h
  | branch tag kind children =>
    have hspan := span_branch hn hs
    have hends : x = start ∨ x + 1 = start + (branch tag kind children).span := h
    omega

mutual

/-- Every position inside a node is owned by the node or by one below it. -/
theorem exists_owner (position x : Nat) (n : Node) (hn : n.Sized) (hs : AllSized n.children)
    (hle : position ≤ x) (hlt : x < position + n.span) :
    ∃ path m start, n.follow position path = some (m, start) ∧ m.OwnsAt start x := by
  cases n with
  | leaf tag text => exact ⟨[], _, _, rfl, hle, hlt⟩
  | branch tag kind children =>
    have hspan := span_branch hn hs
    by_cases hown : x = position ∨ x + 1 = position + (branch tag kind children).span
    · exact ⟨[], _, _, rfl, hown⟩
    · rw [not_or] at hown
      obtain ⟨path, m, start, hfollow, hm⟩ :=
        exists_ownerAmong (position + 1) x children hs (by omega) (by omega)
      cases path with
      | nil => cases hfollow
      | cons i path => exact ⟨i :: path, m, start, hfollow, hm⟩

theorem exists_ownerAmong (position x : Nat) (ns : List Node) (hs : AllSized ns)
    (hle : position ≤ x) (hlt : x < position + spanAmong ns) :
    ∃ path m start, followAmong position ns path = some (m, start) ∧ m.OwnsAt start x := by
  cases ns with
  | nil => exact absurd hlt (Nat.not_lt_of_le hle)
  | cons n ns =>
    have hspan : spanAmong (n :: ns) = n.span + spanAmong ns := rfl
    obtain ⟨hn, hchildren⟩ := hs.child List.mem_cons_self
    by_cases hfirst : x < position + n.span
    · obtain ⟨path, m, start, hfollow, hm⟩ := exists_owner position x n hn hchildren hle hfirst
      exact ⟨0 :: path, m, start, hfollow, hm⟩
    · obtain ⟨path, m, start, hfollow, hm⟩ :=
        exists_ownerAmong (position + n.span) x ns hs.tail (by omega) (by omega)
      cases path with
      | nil => cases hfollow
      | cons i path =>
        exact ⟨(i + 1) :: path, m, start, (followAmong_succ _ _ _ _ _).trans hfollow, hm⟩

end

/-! ## Two nodes at one position -/

/-- What is below an earlier sibling ends before what is below a later one. -/
theorem apart_of_lt {j : Nat} {a b : List Nat} {n m : Node} (hs : AllSized ns) (hij : i < j)
    (ha : followAmong position ns (i :: a) = some (n, start))
    (hb : followAmong position ns (j :: b) = some (m, stop)) : start + n.span ≤ stop := by
  obtain ⟨c, hc, hfirst⟩ := followAmong_cons_eq_some_iff.mp ha
  obtain ⟨d, hd, hsecond⟩ := followAmong_cons_eq_some_iff.mp hb
  obtain ⟨hcs, hcc⟩ := hs.child (List.mem_of_getElem? hc)
  obtain ⟨hds, hdc⟩ := hs.child (List.mem_of_getElem? hd)
  have hend := (within_of_follow hcs hcc hfirst).2.1
  have hbegin := (within_of_follow hds hdc hsecond).1
  -- the first sibling is among those before the second
  have hci : (ns.take j)[i]? = some c := by rw [List.getElem?_take_of_lt hij, hc]
  have hsum : spanAmong (ns.take j) = _ := spanAmong_split hci
  rw [List.take_take, Nat.min_eq_left (Nat.le_of_lt hij)] at hsum
  omega

/-- **Of two nodes at one position one is below the other.** -/
theorem prefix_of_common {a b : List Nat} {n m : Node} (hs : AllSized ns)
    (ha : followAmong position ns a = some (n, start))
    (hb : followAmong position ns b = some (m, stop)) (hn : start ≤ x ∧ x < start + n.span)
    (hm : stop ≤ x ∧ x < stop + m.span) : a <+: b ∨ b <+: a := by
  induction a generalizing b ns position with
  | nil => cases ha
  | cons i a ih =>
    cases b with
    | nil => cases hb
    | cons j b =>
      rcases Nat.lt_trichotomy i j with hlt | rfl | hlt
      · have := apart_of_lt hs hlt ha hb
        omega
      · obtain ⟨c, hc, hfirst⟩ := followAmong_cons_eq_some_iff.mp ha
        obtain ⟨d, hd, hsecond⟩ := followAmong_cons_eq_some_iff.mp hb
        obtain rfl := Option.some.inj (hc.symm.trans hd)
        cases a with
        | nil => exact Or.inl ⟨b, rfl⟩
        | cons k a =>
          cases b with
          | nil => exact Or.inr ⟨k :: a, rfl⟩
          | cons l b =>
            rw [follow_cons] at hfirst hsecond
            have hchildren := (hs.child (List.mem_of_getElem? hc)).2
            rcases ih hchildren hfirst hsecond with hprefix | hprefix
            · exact Or.inl ((List.prefix_cons_inj i).mpr hprefix)
            · exact Or.inr ((List.prefix_cons_inj i).mpr hprefix)
      · have := apart_of_lt hs hlt hb ha
        omega

/-- So the second is inside the first, or the first is inside the second and clear of its
boundaries. -/
theorem inside_of_common {a b : List Nat} {n m : Node} (hs : AllSized ns)
    (ha : followAmong position ns a = some (n, start))
    (hb : followAmong position ns b = some (m, stop)) (hn : start ≤ x ∧ x < start + n.span)
    (hm : stop ≤ x ∧ x < stop + m.span) :
    m ∈ n.nodes ∨ n ∈ m.nodes ∧ stop < start ∧ start + n.span < stop + m.span := by
  rcases prefix_of_common hs ha hb hn hm with ⟨rest, rfl⟩ | ⟨rest, rfl⟩
  · rw [followAmong_append _ _ (ne_nil_of_followAmong ha), ha] at hb
    exact Or.inl (mem_nodes_of_follow hb)
  · rw [followAmong_append _ _ (ne_nil_of_followAmong hb), hb] at ha
    cases rest with
    | nil =>
      obtain ⟨rfl, -⟩ := Prod.mk.inj (Option.some.inj ha)
      exact Or.inl (mem_nodes_self m)
    | cons i rest =>
      obtain ⟨hsized, hchildren⟩ := sized_of_followAmong hs hb
      have hclear := (within_of_follow hsized hchildren ha).2.2 (List.cons_ne_nil i rest)
      exact Or.inr ⟨mem_nodes_of_follow ha, hclear⟩

end Node
end TreePatch
