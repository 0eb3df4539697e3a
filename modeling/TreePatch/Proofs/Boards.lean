import Mathlib.Data.List.Infix
import TreePatch.Board
import TreePatch.Json.Reader
import TreePatch.Proofs.Codecs
import TreePatch.Proofs.Stamps

/-! A board against the forest behind it. Each call on a board, where nodes go by number, has its
counterpart on the forest, where they go by handle: the one succeeds just if the other does, with
the same answer, and as long as the nodes do not outgrow the numbers no run of calls can tell the
two apart (`board_refines`). The flat steps of an answer read back as the patch they were made
of. -/

namespace TreePatch

/-- A new branch has the next name, in the arena of the others. -/
theorem Forest.name_of_branch {f : Forest} {kind : String} {children : List Handle}
    {built : Handle × Forest} (h : f.branch kind children = .ok built) :
    built.1 = f.nextHandle ∧ built.2.arena = f.arena := by
  unfold branch at h
  split at h
  · obtain rfl := Except.ok.inj h
    exact ⟨rfl, arena_claimAll f _⟩
  · cases h

/-- A call in which nodes go by names. -/
inductive Call (ν : Type) where
  | leaf (text : String)
  | branch (kind : String) (children : List ν)
  | advance
  | clear
  | between (previous current : ν)
  | populate (root : ν)
  | firstChange (root : ν)
  deriving Repr

def Call.map {ν μ : Type} (f : ν → μ) : Call ν → Call μ
  | leaf text => leaf text
  | branch kind children => branch kind (children.map f)
  | advance => advance
  | clear => clear
  | between previous current => between (f previous) (f current)
  | populate root => populate (f root)
  | firstChange root => firstChange (f root)

/-- What a call answers, with names for nodes and one way to write steps. -/
inductive Answer (ν σ : Type) where
  | node (name : ν)
  | generation (number : Generation)
  | done
  | patch (steps : List σ)
  | position (found : Option Nat)
  deriving DecidableEq, Repr

def Answer.map {ν μ σ τ : Type} (f : ν → μ) (g : σ → τ) : Answer ν σ → Answer μ τ
  | node name => node (f name)
  | generation number => generation number
  | done => done
  | patch steps => patch (steps.map g)
  | position found => position found

/-- Why a board does not answer: the forest refuses, or there is no number for a new node. -/
inductive Refusal where
  | failed (reason : Error)
  | unnumbered (index : Nat)
  deriving DecidableEq, Repr

/-! ## Calls on a forest -/

namespace Plot

/-- One call, with the plot as it is left. -/
def perform (p : Plot) : Call Handle → Except Error (Answer Handle Step) × Plot
  | .leaf text => (.ok (.node (p.forest.leaf text).1), p.put (p.forest.leaf text).2)
  | .branch kind children => match p.forest.branch kind children with
    | .ok (h, f) => (.ok (.node h), p.put f)
    | .error e => (.error e, p)
  | .advance => (.ok (.generation p.forest.advance.generation), p.put p.forest.advance)
  | .clear => (.ok .done, p.clear)
  | .between previous current => ((Patch.between p.forest previous current).map .patch, p)
  | .populate root => ((Patch.populate p.forest root).map .patch, p)
  | .firstChange root => ((p.forest.node root).map fun n => .position n.firstChange, p)

/-- Calls one after another, each number standing for the handle of that index in the arena at the
time of the call. -/
def run (p : Plot) : List (Call Nat) → List (Except Error (Answer Handle Step)) × Plot
  | [] => ([], p)
  | c :: cs =>
    let (answer, next) := p.perform (c.map p.forest.handleAt)
    let (answers, last) := next.run cs
    (answer :: answers, last)

end Plot

/-! ## Calls on a board -/

namespace Board

/-- The new node's number. -/
def numbered (index : Nat) : Except Refusal (Answer Nat FlatStep) :=
  match number? index with
  | some n => .ok (.node n)
  | none => .error (.unnumbered index)

def perform (b : Board) : Call Nat → Except Refusal (Answer Nat FlatStep) × Board
  | .leaf text => (numbered (b.leaf text).1, (b.leaf text).2)
  | .branch kind children => match b.branch kind children with
    | .ok (index, next) => (numbered index, next)
    | .error e => (.error (.failed e), b)
  | .advance => (.ok (.generation b.advance.generation), b.advance)
  | .clear => (.ok .done, b.clear)
  | .between previous current =>
    (((b.between previous current).map .patch).mapError .failed, b)
  | .populate root => (((b.populate root).map .patch).mapError .failed, b)
  | .firstChange root => (((b.firstChange root).map .position).mapError .failed, b)

def run (b : Board) : List (Call Nat) → List (Except Refusal (Answer Nat FlatStep)) × Board
  | [] => ([], b)
  | c :: cs =>
    let (answer, next) := b.perform c
    let (answers, last) := next.run cs
    (answer :: answers, last)

/-- How a board gives an answer of the forest. -/
def give (answer : Except Error (Answer Handle Step)) : Except Refusal (Answer Nat FlatStep) :=
  (answer.map (.map Handle.index Step.flatten)).mapError .failed

theorem numbered_of_lt {index : Nat} (h : index < 4294967296) :
    numbered index = .ok (.node index) := by
  simp [numbered, number?, h]

theorem handle_eq (b : Board) (index : Nat) :
    b.handle index = (b.plot.forest.node (b.plot.forest.handleAt index)).map fun _ =>
      b.plot.forest.handleAt index := by
  show (b.plot.forest.node (b.plot.forest.handleAt index) >>= fun _ => _) = _
  cases b.plot.forest.node (b.plot.forest.handleAt index) <;> rfl

theorem handles_eq (b : Board) (indices : List Nat) :
    b.handles indices = (b.plot.forest.nodes (indices.map b.plot.forest.handleAt)).map fun _ =>
      indices.map b.plot.forest.handleAt := by
  induction indices with
  | nil => rfl
  | cons i is ih =>
    simp only [handles, handle_eq, ih, List.map_cons, Forest.nodes]
    cases b.plot.forest.node (b.plot.forest.handleAt i) with
    | error e => rfl
    | ok n => cases b.plot.forest.nodes (is.map b.plot.forest.handleAt) <;> rfl

/-- A branch of numbers is the branch of their handles, and its number is the next index. -/
theorem branch_eq (b : Board) (kind : String) (children : List Nat) :
    b.branch kind children =
      (b.plot.forest.branch kind (children.map b.plot.forest.handleAt)).map fun built =>
        (built.1.index, ⟨b.plot.put built.2⟩) := by
  simp only [branch, handles_eq, Forest.branch]
  cases h : b.plot.forest.nodes (children.map b.plot.forest.handleAt) with
  | error e => rfl
  | ok below => simp [Except.map, bind, Except.bind, pure, Except.pure, h]

theorem between_eq (b : Board) (previous current : Nat) :
    b.between previous current = (Patch.between b.plot.forest (b.plot.forest.handleAt previous)
      (b.plot.forest.handleAt current)).map (List.map Step.flatten) := by
  simp only [between, handle_eq]
  cases hp : b.plot.forest.node (b.plot.forest.handleAt previous) with
  | error e => simp [Patch.between, hp, Except.map, bind, Except.bind]
  | ok old =>
    cases hc : b.plot.forest.node (b.plot.forest.handleAt current) with
    | error e => simp [Patch.between, hp, hc, Except.map, bind, Except.bind]
    | ok new =>
      show (Patch.between b.plot.forest _ _ >>= fun patch => .ok (patch.map Step.flatten)) = _
      cases Patch.between b.plot.forest (b.plot.forest.handleAt previous)
        (b.plot.forest.handleAt current) <;> rfl

theorem populate_eq (b : Board) (root : Nat) :
    b.populate root = (Patch.populate b.plot.forest (b.plot.forest.handleAt root)).map
      (List.map Step.flatten) := by
  simp only [populate, handle_eq]
  cases hr : b.plot.forest.node (b.plot.forest.handleAt root) with
  | error e => simp [Patch.populate, hr, Except.map, bind, Except.bind]
  | ok n =>
    show (Patch.populate b.plot.forest _ >>= fun patch => .ok (patch.map Step.flatten)) = _
    cases Patch.populate b.plot.forest (b.plot.forest.handleAt root) <;> rfl

theorem firstChange_eq (b : Board) (root : Nat) :
    b.firstChange root =
      (b.plot.forest.node (b.plot.forest.handleAt root)).map Node.firstChange := rfl

/-- **One call on a board is one call on the forest behind it**, while there are numbers left. -/
theorem perform_eq (b : Board) (c : Call Nat) (h : b.plot.forest.size < 4294967296) :
    b.perform c = (give (b.plot.perform (c.map b.plot.forest.handleAt)).1,
      ⟨(b.plot.perform (c.map b.plot.forest.handleAt)).2⟩) := by
  cases c with
  | leaf text =>
    show (numbered b.plot.forest.size, _) = _
    rw [numbered_of_lt h]
    rfl
  | branch kind children =>
    simp only [perform, branch_eq, Call.map, Plot.perform]
    cases hb : b.plot.forest.branch kind (children.map b.plot.forest.handleAt) with
    | error e => rfl
    | ok built =>
      have hindex : built.1.index = b.plot.forest.size :=
        congrArg Handle.index (Forest.name_of_branch hb).1
      show (numbered built.1.index, _) = _
      rw [numbered_of_lt (hindex ▸ h)]
      rfl
  | advance => rfl
  | clear => rfl
  | between previous current =>
    simp only [perform, between_eq, Call.map, Plot.perform, give]
    cases Patch.between b.plot.forest (b.plot.forest.handleAt previous)
      (b.plot.forest.handleAt current) <;> rfl
  | populate root =>
    simp only [perform, populate_eq, Call.map, Plot.perform, give]
    cases Patch.populate b.plot.forest (b.plot.forest.handleAt root) <;> rfl
  | firstChange root =>
    simp only [perform, firstChange_eq, Call.map, Plot.perform, give]
    cases b.plot.forest.node (b.plot.forest.handleAt root) <;> rfl

/-- **A refused call leaves the board as it was**, and all that it could have claimed. -/
theorem unchanged_of_refused {b : Board} {c : Call Nat} {refusal : Refusal}
    (h : b.plot.forest.size < 4294967296) (hr : (b.perform c).1 = .error refusal) :
    (b.perform c).2 = b := by
  rw [perform_eq b c h] at hr ⊢
  show Board.mk _ = b
  cases c with
  | leaf text => cases hr
  | branch kind children =>
    simp only [Call.map, Plot.perform] at hr ⊢
    cases hb : b.plot.forest.branch kind (children.map b.plot.forest.handleAt) with
    | error e => rfl
    | ok built =>
      rw [hb] at hr
      cases hr
  | advance => cases hr
  | clear => cases hr
  | between previous current => rfl
  | populate root => rfl
  | firstChange root => rfl

/-- A branch is refused for its first child without a node, whatever the others are. -/
theorem perform_branch_unknown (b : Board) (kind : String) {front back : List Nat} {k : Nat}
    (hfront : ∀ i ∈ front, i < b.plot.forest.size) (hk : b.plot.forest.size ≤ k) :
    b.perform (.branch kind (front ++ k :: back)) =
      (.error (.failed (.unknownNode (b.plot.forest.handleAt k))), b) := by
  have held (i : Nat) : (∃ n, b.plot.forest.node (b.plot.forest.handleAt i) = .ok n) ↔
      i < b.plot.forest.size := by
    rw [Forest.exists_node_iff]
    exact and_iff_right rfl
  have hrefused : b.plot.forest.branch kind ((front ++ k :: back).map b.plot.forest.handleAt) =
      .error (.unknownNode (b.plot.forest.handleAt k)) := by
    rw [Forest.branch_eq_error_iff]
    refine ⟨front.map b.plot.forest.handleAt, b.plot.forest.handleAt k,
      back.map b.plot.forest.handleAt, by simp, ?_, fun n hn => ?_, rfl⟩
    · rw [List.forall_mem_map]
      exact fun i hi => (held i).mpr (hfront i hi)
    · have := (held k).mp ⟨n, hn⟩
      omega
  simp only [perform, branch_eq, hrefused]
  rfl

/-- The number of a new node stands for that node from then on. -/
theorem handleAt_of_perform {p : Plot} {c : Call Handle} {h : Handle}
    (hn : (p.perform c).1 = .ok (.node h)) : (p.perform c).2.forest.handleAt h.index = h := by
  cases c with
  | leaf text =>
    obtain rfl := Answer.node.inj (Except.ok.inj hn)
    rfl
  | branch kind children =>
    simp only [Plot.perform] at hn ⊢
    cases hb : p.forest.branch kind children with
    | error e =>
      rw [hb] at hn
      cases hn
    | ok built =>
      rw [hb] at hn
      obtain rfl := Answer.node.inj (Except.ok.inj hn)
      obtain ⟨hname, harena⟩ := Forest.name_of_branch hb
      show built.2.handleAt built.1.index = built.1
      rw [hname, Forest.nextHandle, Forest.handleAt, harena]
      rfl
  | advance => cases hn
  | clear => cases hn
  | between previous current =>
    simp only [Plot.perform] at hn
    cases hp : Patch.between p.forest previous current <;> rw [hp] at hn <;> cases hn
  | populate root =>
    simp only [Plot.perform] at hn
    cases hp : Patch.populate p.forest root <;> rw [hp] at hn <;> cases hn
  | firstChange root =>
    simp only [Plot.perform] at hn
    cases hp : p.forest.node root <;> rw [hp] at hn <;> cases hn

/-- While there are numbers left, a run of calls on a board is that run on the forest. -/
theorem run_eq {b : Board} {calls : List (Call Nat)}
    (room : ∀ front, front <+: calls → (b.plot.run front).2.forest.size < 4294967296) :
    b.run calls = ((b.plot.run calls).1.map give, ⟨(b.plot.run calls).2⟩) := by
  induction calls generalizing b with
  | nil => rfl
  | cons c cs ih =>
    have hstep := perform_eq b c (room [] (List.nil_prefix))
    have hrest := ih (b := (b.perform c).2) fun front hfront => by
      rw [hstep]
      exact room (c :: front) (List.cons_prefix_cons.mpr ⟨rfl, hfront⟩)
    simp only [run, hrest, Plot.run, List.map_cons]
    rw [hstep]

end Board

/-! ## Flat steps -/

namespace FlatStep

/-- The content of a flat step as a fragment. -/
def fragment? (text : String) : Option Fragment := do Fragment.ofJson? (← Json.parse? text)

/-- The step that a flat step was made of. -/
def read? : FlatStep → Option Step
  | ⟨true, start, stop, none⟩ => some (.delete start stop none)
  | ⟨true, start, stop, some text⟩ =>
    (fragment? text).map fun f => .delete start stop (some f)
  | ⟨false, start, _, some text⟩ => (fragment? text).map fun f => .insert start f
  | ⟨false, _, _, none⟩ => none

theorem fragment?_render (f : Fragment) : fragment? f.toJson.render = some f := by
  simp [fragment?, Json.parse?_render f.proper_toJson, f.ofJson?_toJson]

theorem read?_flatten (s : Step) : read? s.flatten = some s := by
  cases s with
  | delete start stop replacement =>
    cases replacement with
    | none => rfl
    | some f => simp [Step.flatten, read?, fragment?_render]
  | insert position content => simp [Step.flatten, read?, fragment?_render]

/-- **Flat steps determine their patch.** -/
theorem mapM_read?_flatten (patch : Patch) : (patch.map Step.flatten).mapM read? = some patch := by
  induction patch with
  | nil => rfl
  | cons s patch ih =>
    rw [List.map_cons, List.mapM_cons, read?_flatten, ih]
    rfl

end FlatStep

/-! ## Runs -/

namespace Plot

theorem size_perform_le (p : Plot) (c : Call Handle) :
    (p.perform c).2.forest.size ≤ p.forest.size + 1 := by
  cases c with
  | leaf text => exact Nat.le_of_eq (Forest.size_add _ _)
  | branch kind children =>
    simp only [perform, Forest.branch]
    cases p.forest.nodes children with
    | error e => exact Nat.le_succ _
    | ok below =>
      refine Nat.le_of_eq ((Forest.size_add _ _).trans ?_)
      rw [Forest.size_claimAll]
  | clear => exact Nat.zero_le _
  | advance => exact Nat.le_succ _
  | between previous current => exact Nat.le_succ _
  | populate root => exact Nat.le_succ _
  | firstChange root => exact Nat.le_succ _

theorem size_run_le (p : Plot) (calls : List (Call Nat)) :
    (p.run calls).2.forest.size ≤ p.forest.size + calls.length := by
  induction calls generalizing p with
  | nil => exact Nat.le_refl _
  | cons c cs ih =>
    have hfirst := size_perform_le p (c.map p.forest.handleAt)
    have hrest := ih (p.perform (c.map p.forest.handleAt)).2
    simp only [run, List.length_cons]
    omega

end Plot

namespace Board

/-- A run that is not too long has numbers for all its nodes. -/
theorem room_of_length {b : Board} {calls : List (Call Nat)}
    (h : b.plot.forest.size + calls.length < 4294967296) :
    ∀ front, front <+: calls → (b.plot.run front).2.forest.size < 4294967296 := by
  intro front hfront
  have hsize := b.plot.size_run_le front
  have hlength := hfront.length_le
  omega

/-- A call answers as the call on the forest does that names nodes by handle. -/
structure Faithful (b : Board) (c : Call Nat) : Prop where
  same : b.perform c = (give (b.plot.perform (c.map b.plot.forest.handleAt)).1,
    ⟨(b.plot.perform (c.map b.plot.forest.handleAt)).2⟩)
  /-- The number of a new node stands for that node. -/
  named : ∀ n, (b.perform c).1 = .ok (.node n) →
    (b.plot.perform (c.map b.plot.forest.handleAt)).1 =
      .ok (.node ((b.perform c).2.plot.forest.handleAt n))
  unchanged : ∀ refusal, (b.perform c).1 = .error refusal → (b.perform c).2 = b
  /-- One child without a node is enough for a branch to be refused. -/
  unknown : ∀ kind front k back, c = .branch kind (front ++ k :: back) →
    (∀ i ∈ front, i < b.plot.forest.size) → b.plot.forest.size ≤ k →
    b.perform c = (.error (.failed (.unknownNode (b.plot.forest.handleAt k))), b)
  /-- A flat patch reads back as the patch it was made of, so it has the same effect. -/
  readable : ∀ flat, (b.perform c).1 = .ok (.patch flat) → ∃ patch,
    (b.plot.perform (c.map b.plot.forest.handleAt)).1 = .ok (.patch patch) ∧
      flat.mapM FlatStep.read? = some patch ∧
      ∀ d : Document, (flat.mapM FlatStep.read?).map d.applyPatch = some (d.applyPatch patch)

theorem faithful (b : Board) (c : Call Nat) (h : b.plot.forest.size < 4294967296) :
    b.Faithful c where
  same := perform_eq b c h
  unchanged _ hr := unchanged_of_refused h hr
  unknown kind front k back hc hfront hk := by
    subst hc
    exact perform_branch_unknown b kind hfront hk
  named n hn := by
    rw [perform_eq b c h] at hn ⊢
    cases ha : (b.plot.perform (c.map b.plot.forest.handleAt)).1 with
    | error e =>
      rw [ha] at hn
      cases hn
    | ok answer =>
      rw [ha] at hn
      cases answer with
      | node made =>
        obtain rfl := Answer.node.inj (Except.ok.inj hn)
        exact congrArg (fun made => Except.ok (Answer.node made)) (handleAt_of_perform ha).symm
      | _ => cases hn
  readable flat hf := by
    rw [perform_eq b c h] at hf
    cases ha : (b.plot.perform (c.map b.plot.forest.handleAt)).1 with
    | error e =>
      rw [ha] at hf
      cases hf
    | ok answer =>
      rw [ha] at hf
      cases answer with
      | patch steps =>
        obtain rfl := Answer.patch.inj (Except.ok.inj hf)
        have hread := FlatStep.mapM_read?_flatten steps
        exact ⟨steps, rfl, hread, fun d => congrArg (Option.map d.applyPatch) hread⟩
      | _ => cases hf

end Board

/-- **A board refines the forest behind it**, call by call and over any run of calls in which the
nodes do not outgrow the numbers. -/
theorem board_refines {b : Board} {calls : List (Call Nat)}
    (room : ∀ front, front <+: calls → (b.plot.run front).2.forest.size < 4294967296) :
    b.run calls = ((b.plot.run calls).1.map Board.give, ⟨(b.plot.run calls).2⟩) ∧
    ∀ front c, front ++ [c] <+: calls → (b.run front).2.Faithful c := by
  refine ⟨Board.run_eq room, fun front c hfront => ?_⟩
  have hprefix : front <+: calls := (List.prefix_append front [c]).trans hfront
  refine Board.faithful _ c ?_
  rw [Board.run_eq fun part hpart => room part (hpart.trans hprefix)]
  exact room front hprefix

/-- Two generations, a branch that is refused in between, and numbers that start again. -/
def sampleCalls : List (Call Nat) :=
  [.leaf "a", .branch "doc" [0], .advance, .branch "list" [0, 7], .leaf "🦀", .branch "doc" [0, 2],
    .between 1 3, .firstChange 3, .clear, .populate 1, .branch "doc" []]

theorem board_refines_sample :
    ((Board.new {}).run sampleCalls).1 = ((Plot.new {}).run sampleCalls).1.map Board.give ∧
    (∃ b, ((Board.new {}).run (sampleCalls.take 3)).2 = b ∧
      b.perform (.branch "list" [0, 7]) = (.error (.failed (.unknownNode ⟨0, 7⟩)), b)) ∧
    ∃ b flat patch, ((Board.new {}).run (sampleCalls.take 6)).2 = b ∧
      flat = [⟨false, 1, 1, some "[\x7b\"Text\":\"🦀\"\x7d]"⟩] ∧
      (b.perform (.between 1 3)).1 = .ok (.patch flat) ∧
      (b.plot.perform (.between ⟨0, 1⟩ ⟨0, 3⟩)).1 = .ok (.patch patch) ∧
      flat.mapM FlatStep.read? = some patch := by
  have hroom : ∀ front, front <+: sampleCalls →
      ((Board.new {}).plot.run front).2.forest.size < 4294967296 :=
    Board.room_of_length (by decide)
  obtain ⟨hrun, hcalls⟩ := board_refines hroom
  have hbranch := hcalls (sampleCalls.take 3) (.branch "list" [0, 7]) ⟨sampleCalls.drop 4, rfl⟩
  have hbetween := hcalls (sampleCalls.take 6) (.between 1 3) ⟨sampleCalls.drop 7, rfl⟩
  have hflat : ((((Board.new {}).run (sampleCalls.take 6)).2).perform (.between 1 3)).1 =
      .ok (.patch [⟨false, 1, 1, some "[\x7b\"Text\":\"🦀\"\x7d]"⟩]) := by
    decide +kernel
  obtain ⟨patch, hpatch, hread, -⟩ := hbetween.readable _ hflat
  exact ⟨congrArg Prod.fst hrun,
    ⟨_, rfl, hbranch.unknown "list" [0] 7 [] rfl (by decide +kernel) (by decide +kernel)⟩,
    _, _, patch, rfl, rfl, hflat, hpatch, hread⟩

end TreePatch
