import Assembler.Proofs.Relaxation.Convergence

/-!
# Relaxations under different budgets

Work on a queue asks for the budget only when the section has grown, so two runs with different
budgets go through the same states until one of them has spent its budget. A queue that was drained
is drained to the same state by every budget that its growths fit in (`drain_within`), and the
number of passes that are allowed plays no part (`runPasses_within`). A relaxation that came to an
end therefore ends in the same way under another limit exactly if its growths fit in the budget of
that limit (`settle_within`, `settle_beyond`).
-/

namespace Assembler.Relaxation

variable {state : Relaxation}

/-- A queue that was drained with a number of growths is drained to the same state by a budget of
as many growths and more; what is more is left over. -/
theorem drain_within {budget left : Nat} {next : Relaxation} {queue : List Nat}
    (drained : drain budget state queue = (next, some left)) :
    ∃ used, used + left = budget ∧ state.Counted next used ∧
      ∀ rest, drain (used + rest) state queue = (next, some rest) := by
  fun_induction drain budget state queue with
  | case1 budget state queue after quiet =>
    cases drained
    refine ⟨0, Nat.zero_add _, counted_firstGrowth quiet, fun rest => ?_⟩
    rw [drain, quiet, Nat.zero_add]
  | case2 state queue after others growth => cases drained
  | case3 state queue after others growth budget ih =>
    obtain ⟨used, whole, counted, again⟩ := ih drained
    refine ⟨1 + used, by omega, (counted_firstGrowth growth).trans counted, fun rest => ?_⟩
    rw [show 1 + used + rest = used + rest + 1 by omega, drain, growth]
    exact again rest

/-- Passes that converged do so under every budget that their growths fit in, and however many
passes are allowed. -/
theorem runPasses_within {last : Relaxation} (coherent : state.Coherent)
    {limit remaining budget : Nat} (allowed : 0 < remaining)
    (converged : runPasses limit remaining budget state = (last, true))
    {otherLimit otherRemaining other : Nat} (otherAllowed : 0 < otherRemaining)
    (enough : last.expansions ≤ state.expansions + other) :
    runPasses otherLimit otherRemaining other state = (last, true) := by
  obtain ⟨remaining, rfl⟩ := Nat.exists_eq_add_one.mpr allowed
  obtain ⟨otherRemaining, rfl⟩ := Nat.exists_eq_add_one.mpr otherAllowed
  by_cases nothing : state.collect [] = []
  · rw [runPasses_of_quiet nothing] at converged ⊢
    exact converged
  · cases drained : state.beginPass.drain budget (state.collect []) with
    | mk next left =>
      cases left with
      | none =>
        rw [runPasses_succ nothing, drained] at converged
        cases converged
      | some left =>
        obtain ⟨used, -, counted, again⟩ := drain_within drained
        rw [runPasses_of_drained coherent nothing drained] at converged
        cases converged
        obtain ⟨rest, rfl⟩ : ∃ rest, other = used + rest := by
          refine Nat.exists_eq_add_of_le ?_
          have growths : next.expansions = state.expansions + used := counted.expansions
          change next.expansions ≤ state.expansions + other at enough
          omega
        exact runPasses_of_drained coherent nothing (again rest)

/-- A relaxation without a problem kept to its budget. -/
theorem expansions_le_of_clean {given : Int} (coherent : state.assignOffsets.Coherent)
    (clean : (state.settle given).problems = []) :
    (state.settle given).expansions ≤ state.expansions + state.budgetFor given := by
  obtain ⟨last, passes, settled⟩ := exists_passes_of_clean coherent clean
  have ending := passesFor_ending coherent given
  rw [passes] at ending
  rw [settled]
  exact ending.expansions_le

/-- A relaxation without a problem ends in the same way under every limit whose budget its growths
fit in. -/
theorem settle_within {given other : Int} (coherent : state.assignOffsets.Coherent)
    (clean : (state.settle given).problems = [])
    (enough : (state.settle given).expansions ≤ state.expansions + state.budgetFor other) :
    state.settle other = state.settle given := by
  obtain ⟨last, passes, settled⟩ := exists_passes_of_clean coherent clean
  rw [settled] at enough ⊢
  exact settle_eq
    (runPasses_within coherent (passLimit_pos ..) passes (passLimit_pos ..) enough)

/-- Under a limit whose budget its growths exceed, the same relaxation stops at the first growth
too many, and says so. -/
theorem settle_beyond {given : Int} (other : Int) (coherent : state.assignOffsets.Coherent)
    (clean : (state.settle given).problems = [])
    (exceeded : state.expansions + state.budgetFor other < (state.settle given).expansions) :
    ∃ pending, { index := none
                 error := .budgetSpent (state.expansions + state.budgetFor other + 1) pending :
                   LayoutProblem } ∈ (state.settle other).problems := by
  obtain ⟨last, passes, settled⟩ := exists_passes_of_clean coherent clean
  rw [settled] at exceeded
  have ending := passesFor_ending coherent other
  cases otherPasses : state.passesFor other with
  | mk stopped converged =>
    rw [otherPasses] at ending
    rw [settle_eq otherPasses]
    cases converged with
    | false =>
      cases ending with
      | @spent next pending something counted =>
        refine ⟨pending, List.mem_append_right _ (List.mem_singleton.mpr ?_)⟩
        rw [counted.expansions]
        rfl
    | true =>
      -- Had it converged, the larger budget would have led to the same end.
      have within : stopped.expansions ≤ state.expansions + state.budgetFor other :=
        ending.expansions_le
      have bound := expansions_le_of_clean coherent clean
      rw [settled] at bound
      change last.expansions ≤ _ at bound
      change _ < last.expansions at exceeded
      have enough : stopped.expansions ≤
          state.assignOffsets.expansions + state.budgetFor given := by
        change _ ≤ state.expansions + _
        omega
      have same := passes.symm.trans (runPasses_within coherent (passLimit_pos ..) otherPasses
        (passLimit_pos given state.spans.length) enough)
      rw [Prod.mk.injEq] at same
      rw [same.1] at exceeded
      omega

end Assembler.Relaxation
