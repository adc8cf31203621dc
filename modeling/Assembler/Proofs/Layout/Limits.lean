import Assembler.Proofs.Layout.Passes
import Assembler.Proofs.Layout.Sections
import Assembler.Proofs.Relaxation.Budget

/-!
# Layouts under a larger limit on passes

The limit on passes decides a layout only through the budget of growths that is derived from it. A
layout without an error is the same under another limit exactly if its growths fit in the budget of
that limit (`layout_within`, `layout_beyond`). The budget is a product in a signed word. As long as
the word holds it, a larger limit is harmless; where it wraps around, a layout that a small limit
lets through can be stopped by a large one (`layoutSection_raised_limit`).
-/

namespace Assembler

namespace Section

variable {sect : Section} {table : SymbolTable} {id : Nat} {given other : Int} {layout : Layout}

variable (success : sect.layout table given id = .ok layout) (clean : layout.error = none)
include success clean

/-- A layout without an error grew within the budget of its limit. -/
theorem expansions_le :
    layout.sect.stats.expansions ≤
      Relaxation.growthBudget (Relaxation.passLimit given layout.sect.stats.spans)
        layout.sect.stats.spans := by
  obtain ⟨prepared, resolved, rfl⟩ := layout_eq_ok_iff.mp success
  have within := Relaxation.expansions_le_of_clean (coherent_relaxation resolved).assignOffsets
    (recorded_error_eq_none_iff.mp clean)
  exact within.trans (Nat.le_of_eq (Nat.zero_add _))

/-- A layout without an error is the layout under every limit whose budget its growths fit in. -/
theorem layout_within
    (enough : layout.sect.stats.expansions ≤
      Relaxation.growthBudget (Relaxation.passLimit other layout.sect.stats.spans)
        layout.sect.stats.spans) :
    sect.layout table other id = .ok layout := by
  obtain ⟨prepared, resolved, rfl⟩ := layout_eq_ok_iff.mp success
  refine layout_eq_ok_iff.mpr ⟨prepared, resolved, ?_⟩
  rw [Relaxation.settle_within (coherent_relaxation resolved).assignOffsets
    (recorded_error_eq_none_iff.mp clean) (enough.trans (Nat.le_add_left _ _))]

/-- Under a limit whose budget its growths exceed, the layout stops at the first growth too many. -/
theorem layout_beyond
    (exceeded : Relaxation.growthBudget (Relaxation.passLimit other layout.sect.stats.spans)
      layout.sect.stats.spans < layout.sect.stats.expansions) :
    ∃ stopped, sect.layout table other id = .ok stopped ∧
      ∃ diagnostic ∈ stopped.diagnostics, ∃ pending, diagnostic.error =
        .budgetSpent (Relaxation.growthBudget
          (Relaxation.passLimit other layout.sect.stats.spans) layout.sect.stats.spans + 1)
          pending := by
  obtain ⟨prepared, resolved, rfl⟩ := layout_eq_ok_iff.mp success
  obtain ⟨pending, member⟩ := Relaxation.settle_beyond other
    (coherent_relaxation resolved).assignOffsets (recorded_error_eq_none_iff.mp clean)
    ((Nat.le_of_eq (Nat.zero_add _)).trans_lt exceeded)
  refine ⟨_, layout_eq_ok_iff.mpr ⟨prepared, resolved, rfl⟩, _, List.mem_map_of_mem member,
    pending, ?_⟩
  rw [reportProblem_error]
  exact congrArg (fun spent => Error.budgetSpent (spent + 1) pending) (Nat.zero_add _)

end Section

/-- Raising a limit on passes that let a section through. As long as a signed word holds the new
budget of growths, nothing changes but the limit. In general nothing changes if the growths fit in
the budget that the word has, and else the section is reported not to converge. -/
theorem layoutSection_raised_limit {object laid : Object} {id : Nat} {layout : Layout} (limit : Int)
    (given : 0 < object.maxPasses) (raised : object.maxPasses ≤ limit)
    (success : object.layoutSection id = .ok (laid, layout)) (clean : layout.error = none) :
    let stats := layout.sect.stats
    let budget := (Int64.ofInt (limit * max 1 stats.spans)).toInt.toNat
    (limit * max 1 stats.spans < 2 ^ 63 ∨ stats.expansions ≤ budget →
      { object with maxPasses := limit }.layoutSection id =
        .ok ({ laid with maxPasses := limit }, layout)) ∧
    (budget < stats.expansions →
      ∃ next stopped, { object with maxPasses := limit }.layoutSection id = .ok (next, stopped) ∧
        ∃ diagnostic ∈ stopped.diagnostics, Cause.noConvergence ∈ diagnostic.error.causes) := by
  intro stats budget
  obtain ⟨sect, found, laidOut, -⟩ := layoutSection_ok success
  rw [layoutSection_eq found, laidOut] at success
  cases success
  have limitOf {given : Int} (positive : 0 < given) :
      Relaxation.passLimit given stats.spans = given.toNat := if_pos positive
  have positive : 0 < limit := by omega
  have budgetIs : Relaxation.growthBudget (Relaxation.passLimit limit stats.spans) stats.spans =
      budget := by
    rw [limitOf positive, Relaxation.growthBudget, Int.toNat_of_nonneg positive.le]
  refine ⟨fun harmless => ?_, fun exceeded => ?_⟩
  · have enough : stats.expansions ≤ budget := by
      rcases harmless with held | enough
      · have small : limit.toNat * max 1 stats.spans < 2 ^ 63 := by
          have product : ((limit.toNat * max 1 stats.spans : Nat) : Int) < 2 ^ 63 := by
            rwa [Int.natCast_mul, Int.toNat_of_nonneg positive.le]
          omega
        have within := Section.expansions_le laidOut clean
        rw [limitOf given] at within
        rw [← budgetIs, limitOf positive, Relaxation.growthBudget_eq small]
        calc stats.expansions
            ≤ object.maxPasses.toNat * max 1 stats.spans :=
              within.trans (Relaxation.growthBudget_le ..)
          _ ≤ limit.toNat * max 1 stats.spans := Nat.mul_le_mul_right _ (by omega)
      · exact enough
    have repeats : ({ object with maxPasses := limit } : Object).layoutSection id = _ :=
      layoutSection_eq found
    rw [repeats, Section.layout_within laidOut clean (budgetIs ▸ enough)]
    rfl
  · obtain ⟨stopped, outcome, diagnostic, member, pending, spent⟩ :=
      Section.layout_beyond laidOut clean (budgetIs ▸ exceeded)
    have stops : ({ object with maxPasses := limit } : Object).layoutSection id = _ :=
      layoutSection_eq found
    rw [outcome] at stops
    exact ⟨_, stopped, stops, diagnostic, member, by simp [spent, Error.causes]⟩

/-- Two jumps over 200 bytes, which their short forms do not reach, with one pass allowed. -/
def distantJumps : Object :=
  let jump := Machine.jmp (.ofLocation ⟨0, 3, 0⟩)
  { maxPasses := 1
    sections :=
      [{ name := ".text"
         chunks := [{ body := .branch jump }, { body := .branch jump },
           { body := .reserve (.ofInt 200) 1 }] }] }

/-- One pass is enough for the two jumps, and 64 passes give the same layout. With 2 ^ 62 passes the
budget wraps around to less than nothing, and the first jump to grow is one too many. -/
theorem distantJumps_raised_limit :
    ∃ laid layout, distantJumps.layoutSection 0 = .ok (laid, layout) ∧ layout.error = none ∧
      layout.sect.stats.expansions = 2 ∧
      { distantJumps with maxPasses := 64 }.layoutSection 0 =
        .ok ({ laid with maxPasses := 64 }, layout) ∧
      ∃ next stopped, { distantJumps with maxPasses := 2 ^ 62 }.layoutSection 0 =
          .ok (next, stopped) ∧
        ∃ diagnostic ∈ stopped.diagnostics, Cause.noConvergence ∈ diagnostic.error.causes := by
  obtain ⟨⟨laid, layout⟩, success, clean, spans, growths⟩ := exists_ok_of_any
    (p := fun outcome => outcome.2.error = none ∧ outcome.2.sect.stats.spans = 2 ∧
      outcome.2.sect.stats.expansions = 2)
    (distantJumps.layoutSection 0) (by decide +kernel)
  have few := layoutSection_raised_limit 64 (by decide) (by decide) success clean
  have many := layoutSection_raised_limit (2 ^ 62) (by decide) (by decide) success clean
  dsimp only at spans growths few many
  rw [spans, growths] at few many
  exact ⟨laid, layout, success, clean, growths, few.1 (.inr (by decide)), many.2 (by decide)⟩

end Assembler
