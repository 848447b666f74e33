import Mathlib.Tactic.Common
import Mathlib.Computability.StateTransition

/-!
# Shortcuts

Two deterministic systems over the same configurations. Where the first takes a step, the second
takes one as well and may thereby pass silent steps of its own. Then each configuration of a run of
the second is one of the run of the first, and the second gets from each configuration of the first
by silent steps to one of its own.
-/

namespace CoralReef.Shortcuts

open Relation StateTransition

variable {C : Type} {next next' : C → Option C} {silent : C → C → Prop} {start : C}

/-- The second system passes silent steps of its own where the first takes a step. -/
structure Passes (next next' : C → Option C) (silent : C → C → Prop) : Prop where
  isStep : ∀ c d, silent c d → next' c = some d
  forth : ∀ c d, next c = some d → ∃ e, next' c = some e ∧ ReflTransGen silent d e
  back : ∀ c e, next' c = some e → Reaches next c e

namespace Passes

theorem reaches (passes : Passes next next' silent) {d : C} (run : Reaches next' start d) :
    Reaches next start d := by
  induction run with
  | refl => exact .refl
  | tail _ step ih => exact ih.trans (passes.back _ _ step)

/-- The second system is a number of silent steps ahead. -/
theorem ahead (passes : Passes next next' silent) {c : C} (run : Reaches next start c) :
    ∃ d, Reaches next' start d ∧ ReflTransGen silent c d := by
  induction run with
  | refl => exact ⟨start, .refl, .refl⟩
  | @tail c c₁ _ step ih =>
    obtain ⟨d, run', quiet⟩ := ih
    obtain ⟨e, step', quiet'⟩ := passes.forth c c₁ step
    rcases ReflTransGen.cases_head quiet with rfl | ⟨c₂, first, rest⟩
    · exact ⟨e, run'.tail step', quiet'⟩
    · have same := (passes.isStep c c₂ first).symm.trans step'
      cases same
      exact ⟨d, run', quiet'.trans rest⟩

end Passes

end CoralReef.Shortcuts
