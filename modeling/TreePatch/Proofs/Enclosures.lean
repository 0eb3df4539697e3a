import TreePatch.Proofs.Grammar
import TreePatch.Proofs.Outlines

/-! Boundaries and their counterparts. In the scaffold that a walk notes every boundary is one of a
pair with something kept in it, and the search with a counter finds the pair from either side
(`scaffolds_paired`). What is open behind a common front is the same for two such scaffolds, so
where they part a closing boundary never stands against the end or another closing boundary. -/

namespace TreePatch

namespace Piece

def isOpening : Piece → Bool
  | opening _ => true
  | _ => false

def isClosing : Piece → Bool
  | closing _ => true
  | _ => false

/-- The piece in a row of tokens. What is kept counts for nothing there. -/
def token : Piece → Token
  | opening kind => .opening kind
  | closing kind => .closing kind
  | kept _ => .text ""

end Piece

/-- The boundary that closes a balanced row is the same for every reading of it. -/
theorem Balanced.inside_unique {a b x y : List Token} {kind other : String} (ha : Balanced a)
    (hb : Balanced b) (h : a ++ .closing kind :: x = b ++ .closing other :: y) : a = b := by
  -- else the longer one closes more than it opens
  have shorter {u v : List Token} {k : String} (hu : Balanced u) :
      ¬ Balanced (u ++ .closing k :: v) := by
    intro hv
    have hopen := (balanced_iff _).mp hv
    rw [openAfter_append, hu.openAfter, Option.bind_some] at hopen
    cases hopen
  rcases append_eq_append_cons h with ⟨rest, rfl, -⟩ | ⟨front, rfl, hrest⟩
  · exact absurd ha (shorter hb)
  · cases front with
    | nil => exact (List.append_nil a).symm
    | cons t front =>
      obtain ⟨rfl, -⟩ := List.cons.inj hrest
      exact absurd hb (shorter ha)

/-- A boundary that closes ends the innermost branch of those that are open before it. -/
theorem open_of_closing {front : List Token} {kind : String} (rest : List Token)
    (h : Balanced (front ++ .closing kind :: rest)) :
    ∃ left, openAfter [] front = some (kind :: left) := by
  have hopen := (balanced_iff _).mp h
  rw [openAfter_append] at hopen
  obtain ⟨pending, hpending, hrest⟩ := Option.bind_eq_some_iff.mp hopen
  cases pending with
  | nil => cases hrest
  | cons top left =>
    rw [openAfter] at hrest
    split at hrest
    · rename_i htop
      exact ⟨left, by rw [hpending, htop]⟩
    · cases hrest

namespace Scaffold

open Piece

/-! ## The search with a counter -/

/-- How many pieces there are up to the one that ends what has begun, if there is one. Fails where
the counter of what has begun would go below zero. -/
def seek (begins ends : Piece → Bool) : Nat → List Piece → Option (Option Nat)
  | _, [] => some none
  | depth, p :: ps =>
    if begins p then (seek begins ends (depth + 1) ps).map (Option.map (· + 1))
    else if ends p then match depth with
      | 0 => none
      | 1 => some (some 1)
      | depth + 2 => (seek begins ends (depth + 1) ps).map (Option.map (· + 1))
    else (seek begins ends depth ps).map (Option.map (· + 1))

/-- The pieces of the branch that has a boundary at the index, looked for with the counter. -/
def seekEnclosure (s : Scaffold) (i : Nat) : Option (Option Extent) :=
  match s[i]? with
  | some (.opening _) =>
    (seek isOpening isClosing 0 (s.drop i)).map (Option.map fun n => ⟨i, i + n⟩)
  | some (.closing _) =>
    (seek isClosing isOpening 0 (s.take (i + 1)).reverse).map
      (Option.map fun n => ⟨i + 1 - n, i + 1⟩)
  | _ => some none

/-- As long as something has begun the counter stays above zero. -/
theorem seek_closing (depth : Nat) (ps : List Piece) :
    seek isOpening isClosing (depth + 1) ps = some (reachClosing (depth + 1) ps) := by
  induction ps generalizing depth with
  | nil => rfl
  | cons p ps ih =>
    cases p with
    | opening kind => simp [seek, reachClosing, isOpening, ih]
    | closing kind =>
      cases depth with
      | zero => rfl
      | succ depth => simp [seek, reachClosing, isOpening, isClosing, ih]
    | kept h => simp [seek, reachClosing, isOpening, isClosing, ih]

theorem seek_opening (depth : Nat) (ps : List Piece) :
    seek isClosing isOpening (depth + 1) ps = some (reachOpening (depth + 1) ps) := by
  induction ps generalizing depth with
  | nil => rfl
  | cons p ps ih =>
    cases p with
    | closing kind => simp [seek, reachOpening, isClosing, ih]
    | opening kind =>
      cases depth with
      | zero => rfl
      | succ depth => simp [seek, reachOpening, isOpening, isClosing, ih]
    | kept h => simp [seek, reachOpening, isOpening, isClosing, ih]

/-- **The counter never goes below zero**, whatever the pieces are. -/
theorem seekEnclosure_eq (s : Scaffold) (i : Nat) : s.seekEnclosure i = some (s.enclosureAt i) := by
  unfold seekEnclosure enclosureAt
  cases hp : s[i]? with
  | none => rfl
  | some p =>
    obtain ⟨hlt, hget⟩ := List.getElem?_eq_some_iff.mp hp
    cases p with
    | kept h => rfl
    | opening kind =>
      have hdrop : s.drop i = .opening kind :: s.drop (i + 1) := by
        rw [List.drop_eq_getElem_cons hlt, hget]
      simp [hdrop, seek, reachClosing, isOpening, seek_closing]
    | closing kind =>
      have htake : (s.take (i + 1)).reverse = .closing kind :: (s.take i).reverse := by
        rw [List.take_add_one, hp]
        simp
      simp [htake, seek, reachOpening, isClosing, seek_opening]

/-! ## Pairs -/

/-- Two boundaries of one kind, from the first to behind the second: whatever opens between them
closes between them. -/
structure Pair (s : Scaffold) (e : Extent) (kind : String) (inside : Scaffold) : Prop where
  row : ∃ front rest, s = front ++ .opening kind :: (inside ++ .closing kind :: rest) ∧
    e = ⟨front.length, front.length + inside.length + 2⟩
  balanced : Balanced (inside.map token)

/-- The boundaries come in pairs with something kept in each, and the pair that a boundary belongs
to is what the search finds from there. -/
structure Paired (s : Scaffold) : Prop where
  balanced : Balanced (s.map token)
  keeps : ∀ {e kind inside}, s.Pair e kind inside → ∃ h, .kept h ∈ inside
  pair : ∀ {i p}, s[i]? = some p → p.kept? = none →
    ∃ e kind inside, s.Pair e kind inside ∧ (i = e.start ∨ i + 1 = e.stop)
  found : ∀ {e kind inside}, s.Pair e kind inside → ∀ {i}, i = e.start ∨ i + 1 = e.stop →
    s.enclosureAt i = some e ∧ s.seekEnclosure i = some (some e)

variable {s t inside : Scaffold} {e : Extent} {kind : String} {i : Nat}

theorem Nested.balanced (hs : Nested s) : Balanced (s.map token) := by
  induction hs with
  | nil => exact .nil
  | kept h _ ih => exact .text "" ih
  | branch kind _ _ _ ihi iha =>
    rw [List.map_cons, List.map_append, List.map_cons]
    exact .branch kind ihi iha

/-- What stands between the boundaries of a pair is nested again, and something is kept there. -/
theorem Nested.between (hs : Nested s) (h : s.Pair e kind inside) :
    Nested inside ∧ inside.keptHandles ≠ [] := by
  obtain ⟨⟨front, rest, hrow, -⟩, hbalanced⟩ := h
  have hopening : s[front.length]? = some (.opening kind) := by
    rw [hrow, List.getElem?_append_right (Nat.le_refl _), Nat.sub_self, List.getElem?_cons_zero]
  obtain ⟨before, kind', between, after, hrow', hnested, hkept, hpos⟩ := hs.pair hopening rfl
  have hfront : front.length = before.length := by
    refine hpos.resolve_right fun hclosing => ?_
    rw [hrow', hclosing, Nat.add_assoc, List.getElem?_append_right (Nat.le_add_right _ _)]
      at hopening
    simp at hopening
  obtain ⟨-, hinside⟩ := List.append_inj (hrow.symm.trans hrow') hfront
  obtain ⟨-, hinside⟩ := List.cons.inj hinside
  have htokens := congrArg (List.map token) hinside
  simp only [List.map_append, List.map_cons] at htokens
  have hlength := congrArg List.length (hbalanced.inside_unique hnested.balanced htokens)
  rw [List.length_map, List.length_map] at hlength
  obtain ⟨rfl, -⟩ := List.append_inj hinside hlength
  exact ⟨hnested, hkept⟩

theorem Nested.paired (hs : Nested s) : s.Paired where
  balanced := hs.balanced
  keeps h := by
    obtain ⟨k, hk⟩ := List.exists_mem_of_ne_nil _ (hs.between h).2
    exact ⟨k, (mem_keptHandles _ k).mp hk⟩
  pair hi hp := by
    obtain ⟨front, kind, inside, rest, hrow, hn, -, hpos⟩ := hs.pair hi hp
    exact ⟨_, kind, inside, ⟨⟨front, rest, hrow, rfl⟩, hn.balanced⟩,
      hpos.imp_right (congrArg (· + 1))⟩
  found h := by
    intro i hi
    have hnested := (hs.between h).1
    obtain ⟨⟨front, rest, rfl, rfl⟩, -⟩ := h
    have hpos : i = front.length ∨ i + 1 = front.length + List.length _ + 2 := hi
    rw [seekEnclosure_eq, enclosureAt_pair _ hnested (by omega)]
    exact ⟨rfl, rfl⟩

/-- Behind a common front a closing boundary stands against something that does not close. -/
theorem Nested.against (hs : Nested s) (ht : Nested t) (htake : s.take i = t.take i)
    (hne : s[i]? ≠ t[i]?) (hi : s[i]? = some (.closing kind)) :
    ∃ p, t[i]? = some p ∧ p.isClosing = false := by
  have closes {u : Scaffold} {k : String} (hu : Nested u) (hk : u[i]? = some (.closing k)) :
      ∃ left, openAfter [] ((u.take i).map token) = some (k :: left) := by
    obtain ⟨hlt, hget⟩ := List.getElem?_eq_some_iff.mp hk
    have hsplit : u = u.take i ++ .closing k :: u.drop (i + 1) := by
      rw [← hget, ← List.drop_eq_getElem_cons hlt, List.take_append_drop]
    have hbalanced := hu.balanced
    rw [hsplit, List.map_append, List.map_cons] at hbalanced
    exact open_of_closing _ hbalanced
  obtain ⟨left, hopen⟩ := closes hs hi
  rw [htake] at hopen
  cases hp : t[i]? with
  | none =>
    -- the branch would be left open
    rw [List.take_of_length_le (List.getElem?_eq_none_iff.mp hp), ht.balanced.openAfter] at hopen
    cases hopen
  | some p =>
    cases p with
    | opening other => exact ⟨_, rfl, rfl⟩
    | kept h => exact ⟨_, rfl, rfl⟩
    | closing other =>
      obtain ⟨left', hopen'⟩ := closes ht hp
      obtain ⟨rfl, -⟩ := List.cons.inj (Option.some.inj (hopen.symm.trans hopen'))
      exact absurd (hi.trans hp.symm) hne

/-! ## Scaffolds of walks -/

/-- What a walk over a root of a reachable forest notes besides what goes or comes, with any handles
uprooted. The scaffolds of `Forest.detach` and `Forest.extract` are of this sort
(`walked_of_detach`, `walked_of_extract`). -/
inductive Walked : Scaffold → Prop
  | old {f : Forest} {h : Handle} {root : Node} (uprooted : Handle → Bool) : f.Reachable →
      f.node h = .ok root →
      Walked (Detaching.walkRoot f.settings (.standing root f.claimedAt uprooted) root).scaffold
  | new {f : Forest} {h : Handle} {root : Node} (uprooted : Handle → Bool) : f.Reachable →
      f.node h = .ok root →
      Walked (Extracting.walkRoot (.reused root uprooted) root).scaffold

theorem walked_of_detach {f : Forest} (hf : f.Reachable) {uprooted : Handle → Bool} {h : Handle}
    {removals : List Removal} (hd : f.detach uprooted h = .ok (removals, s)) : Walked s := by
  cases hr : f.node h with
  | error e =>
    rw [Forest.detach, hr] at hd
    cases hd
  | ok root =>
    have hwalk : f.detach uprooted h = .ok _ := detach_eq_walk hr (hf.sound.allSized hr)
    obtain ⟨-, rfl⟩ := Prod.mk.inj (Except.ok.inj (hd.symm.trans hwalk))
    exact .old uprooted hf hr

theorem walked_of_extract {f : Forest} (hf : f.Reachable) {uprooted : Handle → Bool} {h : Handle}
    {additions : List Extent} (hx : f.extract uprooted h = .ok (additions, s)) : Walked s := by
  cases hr : f.node h with
  | error e =>
    rw [Forest.extract, hr] at hx
    cases hx
  | ok root =>
    have hwalk : f.extract uprooted h = .ok _ := extract_eq_walk hr (hf.sound.allSized hr)
    obtain ⟨-, rfl⟩ := Prod.mk.inj (Except.ok.inj (hx.symm.trans hwalk))
    exact .new uprooted hf hr

theorem Walked.nested (h : Walked s) : Nested s := by
  cases h with
  | old uprooted hf hr =>
    rw [Detaching.walkRoot_eq _ (fun _ => rfl) (hf.sound.allSized hr)]
    exact nested_surveyRoot _ _
  | new uprooted hf hr =>
    rw [Extracting.walkRoot_eq (hf.sound.allSized hr) (Sieve.reused_root _ _)]
    exact nested_surveyRoot _ _

end Scaffold

open Scaffold

/-- **The boundaries of a walked scaffold come in pairs**, each with something kept in it, and from
either boundary the search finds the pair without its counter ever going below zero. Where two such
scaffolds first differ, one of them closes a branch only against an opening or something kept in
the other. -/
theorem scaffolds_paired {s t : Scaffold} (hs : s.Walked) (ht : t.Walked) :
    s.Paired ∧ t.Paired ∧ ∀ i, firstDifference s t = some i →
      (∀ kind, s[i]? = some (.closing kind) → ∃ p, t[i]? = some p ∧ p.isClosing = false) ∧
      ∀ kind, t[i]? = some (.closing kind) → ∃ p, s[i]? = some p ∧ p.isClosing = false := by
  refine ⟨hs.nested.paired, ht.nested.paired, fun i hi => ?_⟩
  obtain ⟨htake, hne⟩ := take_eq_of_firstDifference hi
  exact ⟨fun _ => hs.nested.against ht.nested htake hne,
    fun _ => ht.nested.against hs.nested htake.symm hne.symm⟩

/-- What is left of the shared list without the paragraph of its second item. -/
def firstItem : Scaffold :=
  [.kept ⟨0, 1⟩, .opening "list", .opening "item", .kept ⟨0, 3⟩, .closing "item", .closing "list"]

def bothItems : Scaffold :=
  [.kept ⟨0, 1⟩, .opening "list", .opening "item", .kept ⟨0, 3⟩, .closing "item",
    .opening "item", .kept ⟨0, 5⟩, .closing "item", .closing "list"]

/-- Where one list ends the other goes on with an item. -/
theorem scaffolds_paired_shared : firstItem.Walked ∧ bothItems.Walked ∧
    firstDifference firstItem bothItems = some 5 ∧ Balanced (bothItems.map Piece.token) ∧
    (∃ inside, firstItem.Pair ⟨1, 6⟩ "list" inside ∧ ∃ h, .kept h ∈ inside) ∧
    firstItem.enclosureAt 5 = some ⟨1, 6⟩ ∧ firstItem.seekEnclosure 5 = some (some ⟨1, 6⟩) ∧
    firstItem[5]? = some (.closing "list") ∧
    ∃ p, bothItems[5]? = some p ∧ p.isClosing = false := by
  have hf : sharedForest.Reachable := Scripted.reachable_forest _
  have hextract : sharedForest.extract (· == ⟨0, 5⟩) ⟨0, 10⟩ = .ok ([⟨10, 15⟩], firstItem) := by
    decide +kernel
  have hdetach : sharedForest.detach (fun _ => false) ⟨0, 10⟩ = .ok ([], bothItems) := by
    decide +kernel
  have hfirst : firstItem.Walked := walked_of_extract hf hextract
  have hboth : bothItems.Walked := walked_of_detach hf hdetach
  have hdifference : firstDifference firstItem bothItems = some 5 := by decide
  have hpair : firstItem.Pair ⟨1, 6⟩ "list" [.opening "item", .kept ⟨0, 3⟩, .closing "item"] :=
    ⟨⟨[.kept ⟨0, 1⟩], [], rfl, rfl⟩, by decide⟩
  obtain ⟨hpaired, hpairedBoth, hdiffer⟩ := scaffolds_paired hfirst hboth
  obtain ⟨henclosure, hseek⟩ : firstItem.enclosureAt 5 = _ ∧ firstItem.seekEnclosure 5 = _ :=
    hpaired.found hpair (Or.inr rfl)
  exact ⟨hfirst, hboth, hdifference, hpairedBoth.balanced, ⟨_, hpair, hpaired.keeps hpair⟩,
    henclosure, hseek, rfl, (hdiffer 5 hdifference).1 "list" rfl⟩

end TreePatch
