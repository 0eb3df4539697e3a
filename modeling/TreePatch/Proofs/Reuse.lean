import Mathlib.Data.List.Basic
import TreePatch.Proofs.LineExtents

/-! What a parse of lines keeps. The blocks that an edit leaves are those of the lines it does not
meet, moved to where these lines stand now, and a parse takes each of them again. All other
lines are built anew (`parse_edit`). -/

namespace TreePatch

/-! ## Trees without their names -/

/-- A tree by its kinds, its texts and how they nest. -/
inductive Sketch where
  | leaf (text : String)
  | branch (kind : String) (children : List Sketch)
  deriving Repr

namespace Sketch

/-- The block of a line. -/
def ofLine (line : List Char) : Sketch :=
  let (kind, text) := Blocks.read line
  .branch kind (if text.isEmpty then [] else [.leaf (String.ofList text)])

def ofText (cs : List Char) : Sketch := .branch "doc" ((Text.lines cs).map ofLine)

end Sketch

namespace Node

mutual

def sketch : Node → Sketch
  | leaf _ text => .leaf text
  | branch _ kind children => .branch kind (sketchAmong children)

def sketchAmong : List Node → List Sketch
  | [] => []
  | n :: ns => sketch n :: sketchAmong ns

end

theorem sketchAmong_eq_map (ns : List Node) : sketchAmong ns = ns.map sketch := by
  induction ns with
  | nil => rfl
  | cons n ns ih => rw [sketchAmong, ih, List.map_cons]

end Node

namespace Forest

def sketch (f : Forest) (h : Handle) : Except Error Sketch := (f.node h).map Node.sketch

variable {sort : Layer → Prop} {f g : Forest} {h : Handle} {t : Sketch}

theorem sketch_eq_ok_iff : f.sketch h = .ok t ↔ ∃ n, f.node h = .ok n ∧ n.sketch = t := by
  unfold sketch
  cases f.node h <;> simp [Except.map]

theorem Layered.sketch (hg : f.Layered sort g) (h' : f.sketch h = .ok t) :
    g.sketch h = .ok t := by
  obtain ⟨n, hn, rfl⟩ := sketch_eq_ok_iff.mp h'
  exact sketch_eq_ok_iff.mpr ⟨n, hg.node hn, rfl⟩

end Forest

namespace Blocks

open Text Forest

/-- A new block is made of its line, in the generation of the forest. -/
theorem sketch_of_build {f g : Forest} {line : List Char} {h : Handle}
    (hb : build f line = .ok (h, g)) :
    ∃ n, g.node h = .ok n ∧ n.sketch = .ofLine line ∧ n.born = f.generation := by
  unfold build at hb
  unfold Sketch.ofLine
  generalize read line = parts at hb ⊢
  obtain ⟨kind, text⟩ := parts
  by_cases htext : text.isEmpty = true
  · simp only [htext, if_true, branch, nodes, Except.ok.injEq] at hb ⊢
    obtain ⟨rfl, rfl⟩ := Prod.mk.inj hb
    exact ⟨_, ((grows_join f kind []).view _ _).mpr (Or.inr ⟨rfl, rfl⟩), rfl, rfl⟩
  · simp only [htext] at hb ⊢
    have hleaf : (f.leaf (String.ofList text)).2.node f.nextHandle = .ok _ :=
      ((grows_leaf f _).view _ _).mpr (Or.inr ⟨rfl, rfl⟩)
    simp only [leaf] at hleaf
    simp only [leaf, branch, nodes, hleaf, bind, Except.bind, pure, Except.pure] at hb
    obtain ⟨rfl, rfl⟩ := Prod.mk.inj (Except.ok.inj hb)
    exact ⟨_, ((grows_join _ kind _).view _ _).mpr (Or.inr ⟨rfl, rfl⟩), rfl, rfl⟩

/-- The blocks of lines, the first of which starts at a byte. -/
structure Stand (f : Forest) (start : Nat) (ls : List (List Char)) (blocks : List Block) :
    Prop where
  extents : blocks.map Block.extent = extentsFrom start ls
  sketches : blocks.map (fun b => f.sketch b.handle) = ls.map fun line => .ok (.ofLine line)

variable {f g : Forest} {start : Nat} {ls : List (List Char)} {blocks : List Block}

theorem Stand.bounds (h : Stand f start ls blocks) {b : Block} (hb : b ∈ blocks) :
    start ≤ b.extent.start ∧ b.extent.start ≤ b.extent.stop ∧
      b.extent.stop < start + bytesAmong ls :=
  bounds_of_mem_extentsFrom (h.extents ▸ List.mem_map_of_mem hb)

theorem stand_append_iff {ls' : List (List Char)} :
    Stand f start (ls ++ ls') blocks ↔ ∃ front back, blocks = front ++ back ∧
      Stand f start ls front ∧ Stand f (start + bytesAmong ls) ls' back := by
  constructor
  · intro h
    refine ⟨blocks.take ls.length, blocks.drop ls.length, (List.take_append_drop _ _).symm,
      ⟨?_, ?_⟩, ⟨?_, ?_⟩⟩
    · rw [List.map_take, h.extents, extentsFrom_append]
      exact List.take_left' (length_extentsFrom _ _)
    · rw [List.map_take, h.sketches, List.map_append]
      exact List.take_left' (List.length_map _)
    · rw [List.map_drop, h.extents, extentsFrom_append]
      exact List.drop_left' (length_extentsFrom _ _)
    · rw [List.map_drop, h.sketches, List.map_append]
      exact List.drop_left' (List.length_map _)
  · rintro ⟨front, back, rfl, hfront, hback⟩
    refine ⟨?_, ?_⟩
    · rw [List.map_append, hfront.extents, hback.extents, extentsFrom_append]
    · rw [List.map_append, hfront.sketches, hback.sketches, List.map_append]

/-- Blocks stand in any forest with their trees. -/
theorem Stand.mono (h : Stand f start ls blocks)
    (hg : ∀ {k t}, f.sketch k = .ok t → g.sketch k = .ok t) : Stand g start ls blocks := by
  refine ⟨h.extents, ?_⟩
  rw [← h.sketches]
  refine List.map_congr_left fun b hb => ?_
  have hmem : f.sketch b.handle ∈ ls.map fun line => Except.ok (Sketch.ofLine line) :=
    h.sketches ▸ List.mem_map_of_mem hb
  obtain ⟨line, -, hline⟩ := List.mem_map.mp hmem
  rw [← hline]
  exact hg hline.symm

/-! ## Blocks taken again -/

theorem reuse_cons (b : Block) (more : List Block) :
    reuse b.extent (b :: more) = (some b, more) := by
  simp [reuse]

theorem reuse_of_behind {e : Extent} (behind : ∀ b ∈ blocks, e.start < b.extent.start) :
    reuse e blocks = (none, blocks) := by
  cases blocks with
  | nil => rfl
  | cons b more =>
    have hb := behind b List.mem_cons_self
    have hne : b.extent ≠ e := fun he => Nat.lt_irrefl _ (he ▸ hb)
    simp [reuse, Nat.lt_asymm hb, hne]

/-- The blocks of the next lines are taken as they are. -/
theorem readLines_kept {more later : List Block} {rest : List (List Char)}
    (hkept : blocks.map Block.extent = extentsFrom start ls)
    (h : readLines f (start + bytesAmong ls) more rest = .ok (later, g)) :
    readLines f start (blocks ++ more) (ls ++ rest) = .ok (blocks ++ later, g) := by
  induction ls generalizing start blocks with
  | nil =>
    obtain rfl := List.map_eq_nil_iff.mp hkept
    exact h
  | cons line ls ih =>
    obtain ⟨b, kept, rfl, hb, hkept⟩ := List.map_eq_cons_iff.mp hkept
    have hnext : start + bytesOf line + 1 + bytesAmong ls = start + bytesAmong (line :: ls) := by
      rw [bytesAmong_cons]
      omega
    have hlater := ih hkept (hnext ▸ h)
    simp only [List.cons_append, readLines, ← hb, reuse_cons]
    simp only [hlater, bind, Except.bind, pure, Except.pure]

/-- Where no block starts, the lines are built anew. -/
theorem readLines_anew (f : Forest) (start : Nat) (ls : List (List Char)) (more : List Block)
    (behind : ∀ b ∈ more, start + bytesAmong ls ≤ b.extent.start) :
    ∃ anew g, f.Layered (Layer.Rests f.size []) g ∧ Stand g start ls anew ∧
      (∀ b ∈ anew, ∃ n, g.node b.handle = .ok n ∧ n.born = f.generation) ∧
      ∀ (rest : List (List Char)) (later : List Block) (k : Forest),
        readLines g (start + bytesAmong ls) more rest = .ok (later, k) →
          readLines f start more (ls ++ rest) = .ok (anew ++ later, k) := by
  induction ls generalizing f start with
  | nil => exact ⟨[], f, .refl, ⟨rfl, rfl⟩, List.forall_mem_nil _, fun rest later k h => h⟩
  | cons line ls ih =>
    have hnext : start + bytesOf line + 1 + bytesAmong ls = start + bytesAmong (line :: ls) := by
      rw [bytesAmong_cons]
      omega
    obtain ⟨h, k, hbuild, hfirst, -⟩ := build_eq_ok f line
    obtain ⟨n, hn, hsketch, hborn⟩ := sketch_of_build hbuild
    obtain ⟨anew, g, hlayers, hstand, hnew, hread⟩ :=
      ih k (start + bytesOf line + 1) fun b hb => hnext ▸ behind b hb
    have hgen : k.generation = f.generation := hfirst.frame.2.1
    refine ⟨⟨⟨start, start + bytesOf line⟩, h⟩ :: anew, g, ?_, ⟨?_, ?_⟩, ?_,
      fun rest later m hm => ?_⟩
    · refine hfirst.trans (hlayers.weaken fun _ hl => ?_)
      exact hl.weaken hfirst.size_le (List.Subset.refl _)
    · rw [List.map_cons, hstand.extents, extentsFrom]
    · rw [List.map_cons, List.map_cons, hstand.sketches,
        sketch_eq_ok_iff.mpr ⟨n, hlayers.node hn, hsketch⟩]
    · exact List.forall_mem_cons.mpr ⟨⟨n, hlayers.node hn, hborn⟩, fun b hb => hgen ▸ hnew b hb⟩
    · have hreuse : reuse ⟨start, start + bytesOf line⟩ more = (none, more) := by
        refine reuse_of_behind fun b hb => ?_
        have := behind b hb
        rw [bytesAmong_cons] at this
        simp only
        omega
      have hlater := hread rest later m (hnext ▸ hm)
      simp [readLines, hreuse, hbuild, hlater, bind, Except.bind, pure, Except.pure]

/-- Between the blocks in front and those behind all lines are built anew. -/
theorem readLines_eq_between {front back : List Block} {before middle behind : List (List Char)}
    (hfront : Stand f 0 before front)
    (hback : Stand f (bytesAmong (before ++ middle)) behind back) :
    ∃ anew g, readLines f 0 (front ++ back) (before ++ middle ++ behind) =
        .ok (front ++ anew ++ back, g) ∧
      Stand g 0 (before ++ middle ++ behind) (front ++ anew ++ back) ∧
      ∀ b ∈ anew, ∃ n, g.node b.handle = .ok n ∧ n.born = f.generation := by
  rw [bytesAmong_append] at hback
  obtain ⟨anew, g, hlayers, hstand, hnew, hread⟩ :=
    readLines_anew f (bytesAmong before) middle back fun b hb => (hback.bounds hb).1
  have hlast : readLines g (bytesAmong before + bytesAmong middle) back behind = .ok (back, g) := by
    have := readLines_kept hback.extents (show readLines g _ [] [] = .ok ([], g) from rfl)
    rwa [List.append_nil, List.append_nil] at this
  refine ⟨anew, g, ?_, ?_, hnew⟩
  · rw [List.append_assoc, List.append_assoc]
    refine readLines_kept hfront.extents ?_
    rw [Nat.zero_add]
    exact hread _ _ _ hlast
  · have hfirst : Stand g 0 (before ++ middle) (front ++ anew) := by
      refine stand_append_iff.mpr ⟨front, anew, rfl, hfront.mono hlayers.sketch, ?_⟩
      rw [Nat.zero_add]
      exact hstand
    refine stand_append_iff.mpr ⟨_, back, rfl, hfirst, ?_⟩
    rw [Nat.zero_add, bytesAmong_append]
    exact hback.mono hlayers.sketch

theorem readAll_eq_ok {p : Blocks} {root : Handle} (h : p.readAll f = .ok (root, blocks, g)) :
    ∃ k, readLines f 0 p.blocks (lines p.source.toList) = .ok (blocks, k) ∧
      k.build (.branch "doc" (blocks.map Block.handle)) = .ok (root, g) := by
  simp only [readAll, bind, Except.bind] at h
  split at h
  · cases h
  · rename_i read hread
    split at h
    · cases h
    · rename_i top hbranch
      simp only [pure, Except.pure, Except.ok.injEq, Prod.mk.injEq] at h
      obtain ⟨rfl, rfl, rfl⟩ := h
      exact ⟨read.2, hread, hbranch⟩

theorem readAll_of_parse {p p' : Blocks} {plot plot' : Plot} {root : Handle}
    (h : Parser.parse p plot = (.ok root, p', plot')) :
    p.readAll plot.forest = .ok (root, p'.blocks, plot'.forest) := by
  have hparse : p.parse plot = (.ok root, p', plot') := h
  rw [parse] at hparse
  split at hparse
  · rename_i top read k hall
    obtain ⟨hroot, hrest⟩ := Prod.mk.inj hparse
    obtain ⟨rfl, rfl⟩ := Prod.mk.inj hrest
    rw [hall, Except.ok.inj hroot]
    rfl
  · cases (Prod.mk.inj hparse).1

/-- What a parse makes of the blocks at hand: those of the lines in front and behind stay, and all
other lines are built anew. -/
theorem parse_between {p p' : Blocks} {plot plot' : Plot} {root : Handle}
    {front back : List Block} {before middle behind : List (List Char)}
    (h : Parser.parse p plot = (.ok root, p', plot')) (hblocks : p.blocks = front ++ back)
    (hlines : lines p.source.toList = before ++ middle ++ behind)
    (hfront : Stand plot.forest 0 before front)
    (hback : Stand plot.forest (bytesAmong (before ++ middle)) behind back) :
    ∃ anew, p'.blocks = front ++ anew ++ back ∧
      Stand plot'.forest 0 (lines p.source.toList) p'.blocks ∧
      ∀ b ∈ anew, ∃ n, plot'.forest.node b.handle = .ok n ∧
        n.born = plot.forest.generation := by
  obtain ⟨g, hread, hbranch⟩ := readAll_eq_ok (readAll_of_parse h)
  obtain ⟨anew, k, hbetween, hstand, hnew⟩ := readLines_eq_between hfront hback
  rw [hblocks, hlines, hbetween] at hread
  obtain ⟨hsame, rfl⟩ := Prod.mk.inj (Except.ok.inj hread)
  have hbuild : k.Layered (fun _ => True) plot'.forest := .build .refl trivial hbranch
  refine ⟨anew, hsame.symm, ?_, fun b hb => ?_⟩
  · rw [hlines, ← hsame]
    exact hstand.mono hbuild.sketch
  · obtain ⟨n, hn, hborn⟩ := hnew b hb
    exact ⟨n, hbuild.node hn, hborn⟩

end Blocks

/-! ## Blocks that an edit leaves -/

/-- Where an extent behind an edit stands after it. -/
def Extent.moved (e : Extent) (added : Nat) (x : Extent) : Extent :=
  ⟨x.start - e.length + added, x.stop - e.length + added⟩

def Block.moved (e : Extent) (added : Nat) (b : Block) : Block :=
  { b with extent := e.moved added b.extent }

namespace Blocks

open Text Forest

variable {e : Extent} {added start : Nat} {b : Block} {f : Forest} {blocks : List Block}
  {ls : List (List Char)}

theorem keepApart_of_before (h : b.extent.stop < e.start) : keepApart e added b = some b :=
  if_pos h

theorem keepApart_of_meets (h : b.extent.Meets e) : keepApart e added b = none := by
  rw [keepApart, if_neg (Nat.not_lt.mpr h.2), if_neg (Nat.not_lt.mpr h.1)]

theorem keepApart_of_behind (he : e.start ≤ e.stop) (hb : b.extent.start ≤ b.extent.stop)
    (h : e.stop < b.extent.start) : keepApart e added b = some (b.moved e added) := by
  have hstop : ¬ b.extent.stop < e.start := by omega
  rw [keepApart, if_neg hstop, if_pos h]
  rfl

theorem map_moved_extentsFrom {start' : Nat} (hroom : e.length ≤ start)
    (hshift : start + added = start' + e.length) :
    (extentsFrom start ls).map (e.moved added) = extentsFrom start' ls := by
  induction ls generalizing start start' with
  | nil => rfl
  | cons line ls ih =>
    rw [extentsFrom, extentsFrom, List.map_cons]
    congr 1
    · simp only [Extent.moved, Extent.mk.injEq]
      omega
    · exact ih (by omega) (by omega)

theorem Stand.moved {start' : Nat} (h : Stand f start ls blocks) (hroom : e.length ≤ start)
    (hshift : start + added = start' + e.length) :
    Stand f start' ls (blocks.map (Block.moved e added)) := by
  refine ⟨?_, ?_⟩
  · rw [← map_moved_extentsFrom hroom hshift, ← h.extents, List.map_map, List.map_map]
    rfl
  · rw [← h.sketches, List.map_map]
    rfl

/-- Blocks before the extent, blocks that meet it and blocks behind it. -/
structure Sifted (e : Extent) (blocks front touched back : List Block) : Prop where
  split : blocks = front ++ touched ++ back
  before : ∀ b ∈ front, b.extent.stop < e.start
  meets : ∀ b ∈ touched, b.extent.Meets e
  behind : ∀ b ∈ back, e.stop < b.extent.start

/-- An edit takes away the blocks it meets and moves those behind it. -/
theorem Sifted.blocks_edit {p : Blocks} {front touched back : List Block}
    (h : Sifted e p.blocks front touched back) (he : e.start ≤ e.stop)
    (hb : ∀ b ∈ p.blocks, b.extent.start ≤ b.extent.stop) (text : String) :
    (Parser.edit p e text).blocks = front ++ back.map (Block.moved e (bytesOf text.toList)) := by
  show p.blocks.filterMap (keepApart e (bytesOf text.toList)) = _
  have hfront : front.filterMap (keepApart e (bytesOf text.toList)) = front := by
    rw [List.filterMap_congr fun b hb => keepApart_of_before (h.before b hb), List.filterMap_some]
  have htouched : touched.filterMap (keepApart e (bytesOf text.toList)) = [] :=
    List.filterMap_eq_nil_iff.mpr fun b hb => keepApart_of_meets (h.meets b hb)
  have hback : back.filterMap (keepApart e (bytesOf text.toList)) =
      back.map (Block.moved e (bytesOf text.toList)) := by
    rw [← List.filterMap_eq_map]
    refine List.filterMap_congr fun b hmem => keepApart_of_behind he (hb b ?_) (h.behind b hmem)
    exact h.split ▸ List.mem_append_right _ hmem
  rw [h.split, List.filterMap_append, List.filterMap_append, hfront, htouched, hback,
    List.append_nil]

/-- The lines before and behind an edit stand apart from it, and so do their blocks. -/
theorem Stand.sifted {cs inserted cs' : List Char}
    {before middle middle' behind : List (List Char)} (h : Stand f 0 (lines cs) blocks)
    (hparted : Parted cs e inserted cs' before middle middle' behind) :
    ∃ front touched back, Sifted e blocks front touched back ∧ Stand f 0 before front ∧
      Stand f (bytesAmong (before ++ middle)) behind back := by
  rw [hparted.old] at h
  obtain ⟨_, back, hblocks, hmet, hback⟩ := stand_append_iff.mp h
  obtain ⟨front, touched, rfl, hfront, htouched⟩ := stand_append_iff.mp hmet
  rw [Nat.zero_add] at hback htouched
  refine ⟨front, touched, back, ⟨hblocks, fun b hb => ?_, fun b hb => ?_, fun b hb => ?_⟩,
    hfront, hback⟩
  · have := (hfront.bounds hb).2.2
    have := hparted.before
    omega
  · exact hparted.meets _ (htouched.extents ▸ List.mem_map_of_mem hb)
  · exact Nat.lt_of_lt_of_le hparted.behind (hback.bounds hb).1

end Blocks
end TreePatch
