import TreePatch.Proofs.Assembly

/-! Where a patch deletes and where it inserts. A patch that was put together makes the removals
given to it, last to first, and the additions in order (`Patch.makes_of_assemble`). Only the first
addition can come earlier, in place of all that goes. -/

namespace TreePatch

/-- What a step deletes, by its positions before the step. -/
def Step.removed? : Step → Option Extent
  | .delete start stop _ => some ⟨start, stop⟩
  | .insert _ _ => none

/-- What a step inserts, by its positions after the step. -/
def Step.added? : Step → Option Extent
  | .delete _ _ _ => none
  | .insert position content => some ⟨position, position + content.size⟩

theorem Fragment.start_add_size_of_slice {f inside : Fragment} {e : Extent}
    (h : f.slice e = .ok inside) : e.start + inside.size = e.stop := by
  simp only [slice, bind, Except.bind] at h
  split at h
  · cases h
  · rename_i hle
    cases hfront : f.cutAt e.start with
    | error reason => simp [hfront] at h
    | ok front =>
      cases hback : front.2.cutAt e.length with
      | error reason => simp [hfront, hback] at h
      | ok back =>
        simp only [hfront, hback, pure, Except.pure, Except.ok.injEq] at h
        have hsize := (cutAt_size hback).1
        rw [h, Extent.length] at hsize
        omega

namespace Patch

/-- The patch makes the removals, last to first, and the additions in order. What fills a
document that loses its whole content can be the first addition. -/
structure Makes (patch : Patch) (whole : Extent) (content : Fragment) (removals : List Removal)
    (additions : List Extent) : Prop where
  removed : patch.filterMap Step.removed? = (removals.map Removal.extent).reverse
  added : patch.filterMap Step.added? = additions ∨ ∃ first filler,
    additions = first :: patch.filterMap Step.added? ∧ content.slice first = .ok filler ∧
      .delete whole.start whole.stop (some filler) ∈ patch
  inserted : ∀ position inside, .insert position inside ∈ patch →
    content.slice ⟨position, position + inside.size⟩ = .ok inside

variable {content filler : Fragment} {patch later : Patch} {es rest : List Extent}

theorem insertions_eq_ok (h : insertions content es = .ok later) :
    later.filterMap Step.removed? = [] ∧ later.filterMap Step.added? = es ∧
      ∀ position inside, .insert position inside ∈ later →
        content.slice ⟨position, position + inside.size⟩ = .ok inside := by
  induction es generalizing later with
  | nil =>
    obtain rfl := Except.ok.inj h
    simp
  | cons e es ih =>
    cases hslice : content.slice e with
    | error reason => simp [insertions, hslice, bind, Except.bind] at h
    | ok x =>
      cases hrest : insertions content es with
      | error reason => simp [insertions, hslice, hrest, bind, Except.bind] at h
      | ok behind =>
        simp only [insertions, hslice, hrest, bind, Except.bind, pure, Except.pure,
          Except.ok.injEq] at h
        subst h
        obtain ⟨hremoved, hadded, hinserted⟩ := ih hrest
        have hextent : (⟨e.start, e.start + x.size⟩ : Extent) = e := by
          rw [Fragment.start_add_size_of_slice hslice]
        refine ⟨?_, ?_, ?_⟩
        · rw [List.filterMap_cons]
          exact hremoved
        · simp only [List.filterMap_cons, Step.added?, hextent, hadded]
        · intro position inside hmem
          rcases List.mem_cons.mp hmem with he | hmem
          · obtain ⟨rfl, rfl⟩ := Step.insert.inj he
            rw [hextent, hslice]
          · exact hinserted position inside hmem

theorem removed_deletions (whole : Extent) (filler : Fragment) (removals : List Removal) :
    (deletions whole filler removals).filterMap Step.removed? =
      (removals.map Removal.extent).reverse := by
  rw [deletions, List.filterMap_map, ← List.map_reverse, ← List.filterMap_eq_map]
  rfl

theorem added_deletions (whole : Extent) (filler : Fragment) (removals : List Removal) :
    (deletions whole filler removals).filterMap Step.added? = [] := by
  rw [deletions, List.filterMap_map]
  exact List.filterMap_eq_nil_iff.mpr fun r _ => rfl

theorem not_insert_mem_deletions {whole : Extent} {removals : List Removal} {position : Nat}
    {inside : Fragment} : .insert position inside ∉ deletions whole filler removals := by
  intro hmem
  obtain ⟨r, -, he⟩ := List.mem_map.mp hmem
  cases he

theorem delete_whole_mem {whole : Extent} {removals : List Removal}
    (h : removals.any (·.extent = whole) = true) :
    .delete whole.start whole.stop (some filler) ∈ deletions whole filler removals := by
  obtain ⟨r, hr, he⟩ := List.any_eq_true.mp h
  have he : r.extent = whole := by simpa using he
  refine List.mem_map.mpr ⟨r, List.mem_reverse.mpr hr, ?_⟩
  rw [if_pos he, he]

/-- Deletions and then insertions make what they were made of. -/
theorem makes_append {whole : Extent} {removals : List Removal}
    (hl : insertions content rest = .ok later)
    (added : rest = es ∨ ∃ first, es = first :: rest ∧ content.slice first = .ok filler ∧
      .delete whole.start whole.stop (some filler) ∈ deletions whole filler removals) :
    Makes (deletions whole filler removals ++ later) whole content removals es := by
  obtain ⟨hremoved, hadded, hinserted⟩ := insertions_eq_ok hl
  have hrest : (deletions whole filler removals ++ later).filterMap Step.added? = rest := by
    rw [List.filterMap_append, added_deletions, hadded, List.nil_append]
  constructor
  · rw [List.filterMap_append, removed_deletions, hremoved, List.append_nil]
  · rcases added with rfl | ⟨first, rfl, hslice, hmem⟩
    · exact Or.inl hrest
    · exact Or.inr ⟨first, filler, by rw [hrest], hslice, List.mem_append_left _ hmem⟩
  · intro position inside hmem
    rcases List.mem_append.mp hmem with hmem | hmem
    · exact absurd hmem not_insert_mem_deletions
    · exact hinserted position inside hmem

/-- A filling takes the first addition or leaves all of them. -/
theorem filling_cases {settings : Settings} (h : filling settings content es = .ok (filler, rest)) :
    rest = es ∨ ∃ first, es = first :: rest ∧ content.slice first = .ok filler := by
  cases es with
  | nil =>
    obtain ⟨-, rfl⟩ := Prod.mk.inj (Except.ok.inj h)
    exact Or.inl rfl
  | cons first es =>
    simp only [filling] at h
    split at h
    · cases hslice : content.slice first with
      | error reason => simp [hslice, bind, Except.bind] at h
      | ok leading =>
        simp only [hslice, bind, Except.bind] at h
        split at h
        · obtain ⟨rfl, rfl⟩ := Prod.mk.inj (Except.ok.inj h)
          exact Or.inr ⟨first, rfl, hslice⟩
        · obtain ⟨-, rfl⟩ := Prod.mk.inj (Except.ok.inj h)
          exact Or.inl rfl
    · obtain ⟨-, rfl⟩ := Prod.mk.inj (Except.ok.inj h)
      exact Or.inl rfl

/-- An assembled patch deletes and then inserts, all of the additions or all but the first. -/
theorem assemble_eq_ok {settings : Settings} {oldSize : Nat} {removals : List Removal}
    (h : assemble settings oldSize content removals es = .ok patch) :
    ∃ filler rest later, patch = deletions ⟨0, oldSize⟩ filler removals ++ later ∧
      insertions content rest = .ok later ∧
      (rest = es ∨ ∃ first, es = first :: rest ∧ content.slice first = .ok filler ∧
        .delete 0 oldSize (some filler) ∈ deletions ⟨0, oldSize⟩ filler removals) := by
  simp only [assemble] at h
  split at h
  · rename_i hwhole
    cases hfill : filling settings content es with
    | error reason => simp [hfill, bind, Except.bind] at h
    | ok filled =>
      obtain ⟨filler, rest⟩ := filled
      cases hl : insertions content rest with
      | error reason => simp [hfill, hl, bind, Except.bind] at h
      | ok later =>
        simp only [hfill, hl, bind, Except.bind, pure, Except.pure, Except.ok.injEq] at h
        refine ⟨filler, rest, later, h.symm, hl, ?_⟩
        rcases filling_cases hfill with rfl | ⟨first, rfl, hslice⟩
        · exact Or.inl rfl
        · exact Or.inr ⟨first, rfl, hslice, delete_whole_mem hwhole⟩
  · cases hl : insertions content es with
    | error reason => simp [hl, bind, Except.bind] at h
    | ok later =>
      simp only [hl, bind, Except.bind, pure, Except.pure, Except.ok.injEq] at h
      exact ⟨.empty, es, later, h.symm, hl, Or.inl rfl⟩

/-- **An assembled patch makes what it was given**, whatever that is. -/
theorem makes_of_assemble {settings : Settings} {oldSize : Nat} {removals : List Removal}
    (h : assemble settings oldSize content removals es = .ok patch) :
    patch.Makes ⟨0, oldSize⟩ content removals es := by
  obtain ⟨filler, rest, later, rfl, hl, hrest⟩ := assemble_eq_ok h
  exact makes_append hl hrest

end Patch
end TreePatch
