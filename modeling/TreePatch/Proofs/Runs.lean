import TreePatch.Blueprint
import TreePatch.Script
import TreePatch.Workspace

/-! What can be done to a forest: building, advancing, clearing, and going back to a save. The
forests that such a run can reach are told apart from forests at large here; what holds of
all of them is shown step by step. -/

namespace TreePatch

/-- A plot as it is worked on, with the saves at hand, latest first. -/
structure Tended where
  plot : Plot
  saves : List Save
  deriving Repr

namespace Tended

def forest (t : Tended) : Forest := t.plot.forest

/-- Puts a forest in place of the one at hand. -/
def put (t : Tended) (f : Forest) : Tended := ⟨t.plot.put f, t.saves⟩

@[simp] theorem forest_put (t : Tended) (f : Forest) : (t.put f).forest = f := rfl

@[simp] theorem spare_put (t : Tended) (f : Forest) : (t.put f).plot.spare = t.plot.spare := rfl

@[simp] theorem saves_put (t : Tended) (f : Forest) : (t.put f).saves = t.saves := rfl

/-- One thing done. A restore goes behind the later saves; only strays outlive it. -/
inductive Step (strays : Bool) (t : Tended) : Tended → Prop
  | build {layer : Layer} {h : Handle} {f : Forest} :
      t.forest.build layer = .ok (h, f) → Step strays t (t.put f)
  | advance : Step strays t (t.put t.forest.advance)
  | clear {arena : Nat} : t.plot.spare ≤ arena →
      Step strays t ⟨⟨t.forest.clear arena, arena + 1⟩, t.saves⟩
  | save : Step strays t ⟨t.plot, t.forest.save :: t.saves⟩
  | restore {later earlier : List Save} {s : Save} {f : Forest} :
      t.saves = later ++ s :: earlier → t.forest.restore s = .ok f →
      Step strays t ⟨t.plot.put f, (if strays then later else []) ++ s :: earlier⟩

inductive Run (strays : Bool) (t : Tended) : Tended → Prop
  | refl : Run strays t t
  | tail {u v : Tended} : Run strays t u → Step strays u v → Run strays t v

variable {strays : Bool} {t u v : Tended}

theorem Step.run (h : Step strays t u) : Run strays t u := .tail .refl h

theorem Run.trans (h : Run strays t u) (h' : Run strays u v) : Run strays t v := by
  induction h' with
  | refl => exact h
  | tail _ hs ih => exact .tail ih hs

/-- What every step keeps, every run keeps. -/
theorem Run.keeps {P : Tended → Prop} (step : ∀ {u v}, Step strays u v → P u → P v)
    (h : Run strays t u) (ht : P t) : P u := by
  induction h with
  | refl => exact ht
  | tail _ hs ih => exact step hs ih

end Tended

/-- The forest can be reached from an empty one, going back to saves only as long as no
restore has gone behind them. -/
def Forest.Reachable (f : Forest) : Prop :=
  ∃ arena settings spare t, arena < spare ∧
    Tended.Run false ⟨⟨{ arena, settings }, spare⟩, []⟩ t ∧ t.forest = f

theorem Forest.Reachable.build {f g : Forest} (hf : f.Reachable) {layer : Layer} {h : Handle}
    (hb : f.build layer = .ok (h, g)) : g.Reachable := by
  obtain ⟨arena, settings, spare, t, hlt, hrun, rfl⟩ := hf
  exact ⟨arena, settings, spare, t.put g, hlt, hrun.tail (.build hb), rfl⟩

open Tended

namespace Blueprint

mutual

/-- Building a tree is a run, also when it fails. -/
theorem run_build (strays : Bool) (t : Tended) (labels : Labels) (b : Blueprint) :
    Run strays t (t.put (build t.forest labels b).2.1) := by
  cases b with
  | node ref => exact .refl
  | leaf text label => exact Step.run (.build (show t.forest.build (.leaf text) = _ from rfl))
  | branch kind children label =>
    have hall := run_buildAll strays t labels children
    unfold build
    split
    · rename_i e f labels' he
      rw [he] at hall
      exact hall
    · rename_i hs f labels' he
      rw [he] at hall
      split
      · exact hall
      · rename_i below hb
        have hj : (t.put f).forest.build (.branch kind hs) = .ok (f.join kind below) := by
          simp only [forest_put, Forest.build, Forest.branch, hb]
        exact .tail hall (.build hj)

theorem run_buildAll (strays : Bool) (t : Tended) (labels : Labels) (bs : List Blueprint) :
    Run strays t (t.put (buildAll t.forest labels bs).2.1) := by
  cases bs with
  | nil => exact .refl
  | cons b bs =>
    have hb := run_build strays t labels b
    unfold buildAll
    split
    · rename_i e f labels' he
      rw [he] at hb
      exact hb
    · rename_i h f labels' he
      rw [he] at hb
      have hbs := run_buildAll strays (t.put f) labels' bs
      split
      · rename_i e f' labels'' he'
        rw [forest_put, he'] at hbs
        exact hb.trans hbs
      · rename_i hs f' labels'' he'
        rw [forest_put, he'] at hbs
        exact hb.trans hbs

end

end Blueprint

/-- What a script does to a forest is a run. -/
theorem Scripted.run_run (strays : Bool) (t : Tended) (labels : Labels)
    (statements : List Statement) :
    Run strays t ⟨(Scripted.run t.plot labels statements).2.1, t.saves⟩ := by
  induction statements generalizing t labels with
  | nil => exact .refl
  | cons statement rest ih =>
    cases statement with
    | advance =>
      have hstep : Tended.Step strays t (t.put t.forest.advance) := .advance
      exact hstep.run.trans (ih (t.put t.forest.advance) labels)
    | clear =>
      have hstep : Tended.Step strays t ⟨t.plot.clear, t.saves⟩ := .clear (Nat.le_refl _)
      exact hstep.run.trans (ih ⟨t.plot.clear, t.saves⟩ labels)
    | build tree =>
      have hbuild := Blueprint.run_build strays t labels tree
      unfold run
      split
      · rename_i h f labels' he
        rw [show tree.build t.forest labels = _ from he] at hbuild
        exact hbuild.trans (ih (t.put f) labels')
      · rename_i e f labels' he
        rw [show tree.build t.forest labels = _ from he] at hbuild
        exact hbuild

theorem Scripted.run_parse (strays : Bool) (p : Scripted) (t : Tended) :
    Run strays t ⟨(Scripted.parse p t.plot).2.2, t.saves⟩ := by
  have hrun := run_run strays t p.labels p.script.statements
  unfold parse
  split
  · rename_i e plot labels he
    rwa [he] at hrun
  · rename_i plot labels he
    rwa [he] at hrun

/-- The forest that statements lead to from an empty one. -/
def Scripted.forest (statements : List Statement) : Forest :=
  (run (.new {}) [] statements).2.1.forest

theorem Scripted.reachable_forest (statements : List Statement) :
    (forest statements).Reachable :=
  ⟨0, {}, 1, _, Nat.zero_lt_one, run_run false ⟨.new {}, []⟩ [] statements, rfl⟩

end TreePatch
