import Assembler.Proofs.Relaxation.Queue

/-!
# How a relaxation ends

`Counted` says what a stretch of work adds to the counters of a relaxation. A pass whose queue is
drained leaves nothing for the next one, so `runPasses_ending` finds three ends only: nothing fires
at the start, the budget of growths runs out in the first pass, or the second pass is empty.
-/

namespace Assembler

variable {state : Relaxation}

namespace Relaxation

/-- No problem says that the relaxation did not converge. -/
def Convergent (problems : List LayoutProblem) : Prop :=
  ∀ problem ∈ problems, Cause.noConvergence ∉ problem.error.causes

/-- More problems that do not speak of convergence. -/
theorem Convergent.append {problems added : List LayoutProblem} (convergent : Convergent problems)
    (others : Convergent added) : Convergent (problems ++ added) := by
  intro problem member
  rcases List.mem_append.mp member with old | new
  · exact convergent problem old
  · exact others problem new

/-- Padding fails because it cannot reach back. -/
theorem placeAt_causes {slot : Slot} {offset : UInt64} {error : Error}
    (sound : slot.error = none) (failed : (slot.placeAt offset).error = some error) :
    error.causes = [.orgOverlap] := by
  unfold Slot.placeAt at failed
  rw [sound] at failed
  cases rule : slot.setter with
  | none => simp [rule] at failed
  | some setter =>
    cases setter with
    | align boundary maxSkip =>
      by_cases tooLong : maxSkip ≠ 0 ∧ maxSkip < (boundary - offset % boundary) % boundary <;>
        simp [rule, Setter.pad, tooLong] at failed
    | origin start =>
      by_cases behind : start < offset
      · simp only [rule, Setter.pad, behind, if_true, Option.some.injEq] at failed
        rw [← failed, Error.causes]
      · simp [rule, Setter.pad, behind] at failed

/-- Assigning offsets fails slots whose padding cannot reach back. -/
theorem causes_of_mem_placementProblems {slots : List Slot} {problem : LayoutProblem}
    (member : problem ∈ placementProblems slots (placeSlots 0 slots).1) :
    problem.error.causes = [.orgOverlap] := by
  obtain ⟨index, old, new, error, oldAt, newAt, sound, failed, rfl⟩ :=
    mem_placementProblems.mp member
  obtain ⟨place, moved⟩ := placeSlots_getElem? 0 slots index
  have placed : new = old.placeAt place := by
    rwa [newAt, oldAt, Option.map_some, Option.some.injEq] at moved
  exact placeAt_causes sound (placed ▸ failed)

/-- Assigning offsets adds no problem that speaks of convergence. -/
theorem convergent_placementProblems (slots : List Slot) :
    Convergent (placementProblems slots (placeSlots 0 slots).1) := by
  intro problem member
  simp [causes_of_mem_placementProblems member]

/-- The causes for which a growth is refused: what the span asks for cannot be computed, or it
cannot be had. -/
def refusalCauses : List Cause :=
  [.notConstant, .negativeMultiple, .multipleDecreased, .secondaryExpansion]

/-- A growth is refused for few causes. -/
theorem grow_causes {slot : Slot} {span : Span} {distance : Option Int64} {error : Error}
    (refused : (slot.grow span distance).error = some error) : error.causes ⊆ refusalCauses := by
  unfold Slot.grow at refused
  cases purpose : span.purpose with
  | branch nearLength => simp [purpose, Outcome.error] at refused
  | leb128 signed =>
    cases distance <;> simp only [purpose, Option.isNone_none, Option.isNone_some,
      Bool.false_eq_true, if_true, if_false, Outcome.error, Option.some.injEq, reduceCtorEq]
      at refused
    subst refused
    simp [Error.causes, refusalCauses]
  | copies =>
    simp only [purpose] at refused
    split at refused
    · simp only [Outcome.error, Option.some.injEq] at refused
      simp [← refused, Error.causes, refusalCauses]
    · repeat' split at refused
      all_goals simp only [Outcome.error, Option.some.injEq, reduceCtorEq] at refused
      all_goals simp [← refused, Error.causes, refusalCauses]

/-- A stretch of work with a number of growths. -/
structure Counted (state next : Relaxation) (growths : Nat) : Prop where
  passes : next.passes = state.passes
  expansions : next.expansions = state.expansions + growths
  convergent : Convergent state.problems → Convergent next.problems

theorem Counted.refl (state : Relaxation) : state.Counted state 0 where
  passes := rfl
  expansions := rfl
  convergent := id

/-- Growths of two parts of a run add up. -/
theorem Counted.trans {first second third : Relaxation} {before after : Nat}
    (earlier : first.Counted second before) (later : second.Counted third after) :
    first.Counted third (before + after) where
  passes := later.passes.trans earlier.passes
  expansions := by
    rw [later.expansions, earlier.expansions, Nat.add_assoc]
  convergent := later.convergent ∘ earlier.convergent

/-- Assigning offsets is no growth. -/
theorem counted_assignOffsets (state : Relaxation) : state.Counted state.assignOffsets 0 where
  passes := rfl
  expansions := rfl
  convergent := fun convergent => convergent.append (convergent_placementProblems state.slots)

/-- A step counts its growth. -/
theorem Effect.counted {next : Relaxation} {place : Nat} {grew : Bool}
    (effect : state.Effect place next grew) : state.Counted next (if grew then 1 else 0) := by
  cases effect with
  | idle => exact .refl state
  | failed firing grown refused =>
    subst grown
    refine ⟨rfl, rfl, fun convergent => convergent.append ?_⟩
    rw [Convergent, List.forall_mem_singleton]
    exact fun blamed => absurd (grow_causes refused blamed) (by decide)
  | shrank firing grown granted less =>
    refine ⟨rfl, rfl, fun convergent => convergent.append ?_⟩
    simp [Convergent, Error.causes]
  | kept => exact ⟨rfl, rfl, id⟩
  | grew firing grown granted more =>
    exact ⟨rfl, rfl, fun convergent => (counted_assignOffsets _).convergent convergent⟩

/-- Work up to the first growth is one growth, or none when the queue runs out. -/
theorem counted_firstGrowth {next : Relaxation} {queue : List Nat} {rest : Option (List Nat)}
    (worked : state.firstGrowth queue = (next, rest)) :
    state.Counted next (rest.elim 0 fun _ => 1) := by
  fun_induction firstGrowth state queue with
  | case1 state =>
    cases worked
    exact .refl next
  | case2 state place others after processed =>
    cases worked
    exact (effect_of_process processed).counted
  | case3 state place others after processed ih =>
    have together := (effect_of_process processed).counted.trans (ih worked)
    rwa [if_neg Bool.false_ne_true, Nat.zero_add] at together

/-- How the work on a queue ends: it was drained within the budget, or one growth more than the
budget was made. -/
inductive DrainEnding (budget : Nat) (state : Relaxation) : Relaxation × Option Nat → Prop where
  | drained {next : Relaxation} {used left : Nat} (whole : used + left = budget)
      (counted : state.Counted next used) : DrainEnding budget state (next, some left)
  | spent {next : Relaxation} {pending : Nat} (counted : state.Counted next (budget + 1)) :
      DrainEnding budget state (next.breakOff (.budgetSpent next.expansions pending), none)

/-- The work on a queue ends in one of the two ways. -/
theorem drain_ending (budget : Nat) (state : Relaxation) (queue : List Nat) :
    DrainEnding budget state (drain budget state queue) := by
  fun_induction drain budget state queue with
  | case1 budget state queue next quiet =>
    exact .drained (Nat.zero_add budget) (counted_firstGrowth quiet)
  | case2 state queue next rest growth => exact .spent (counted_firstGrowth growth)
  | case3 state queue next rest growth budget ih =>
    have worked := counted_firstGrowth growth
    generalize drain budget next (rest ++ next.collect rest) = result at ih ⊢
    cases ih with
    | @drained last used left whole counted =>
      have together : state.Counted last (1 + used) := Counted.trans worked counted
      exact .drained (by omega) together
    | @spent last pending counted =>
      have together : state.Counted last (1 + (budget + 1)) := Counted.trans worked counted
      exact .spent (Nat.add_comm 1 (budget + 1) ▸ together)

/-- The spans that fire do not depend on the number of passes. -/
@[simp] theorem collect_beginPass (state : Relaxation) (waiting : List Nat) :
    state.beginPass.collect waiting = state.collect waiting := rfl

/-- How passes end: nothing fires at the start, the budget runs out in the first pass, or the first
pass leaves nothing for the second. -/
inductive PassesEnding (budget : Nat) (state : Relaxation) : Relaxation × Bool → Prop where
  | quiet (nothing : state.collect [] = []) : PassesEnding budget state (state.beginPass, true)
  | spent {next : Relaxation} {pending : Nat} (something : state.collect [] ≠ [])
      (counted : state.beginPass.Counted next (budget + 1)) :
      PassesEnding budget state (next.breakOff (.budgetSpent next.expansions pending), false)
  | drained {next : Relaxation} {used : Nat} (something : state.collect [] ≠ [])
      (within : used ≤ budget) (counted : state.beginPass.Counted next used)
      (nothing : next.collect [] = []) : PassesEnding budget state (next.beginPass, true)

/-- Passes end when nothing waits. -/
theorem runPasses_of_quiet (nothing : state.collect [] = []) (limit remaining budget : Nat) :
    runPasses limit remaining budget state = (state.beginPass, true) := by
  have empty : (state.beginPass.collect []).isEmpty = true := by simp [nothing]
  cases remaining <;> rw [runPasses] <;> exact if_pos empty

/-- A pass in which something fires drains what was collected. -/
theorem runPasses_succ (something : state.collect [] ≠ []) (limit remaining budget : Nat) :
    runPasses limit (remaining + 1) budget state =
      match state.beginPass.drain budget (state.collect []) with
      | (next, none) => (next, false)
      | (next, some left) => runPasses limit remaining left next := by
  have nonempty : ¬ (state.beginPass.collect []).isEmpty = true := by simpa using something
  rw [runPasses]
  exact if_neg nonempty

/-- All that fires was in the queue, so a pass that drains it leaves the next one empty. -/
theorem runPasses_of_drained {next : Relaxation} (coherent : state.Coherent)
    (something : state.collect [] ≠ []) {budget left : Nat}
    (drained : state.beginPass.drain budget (state.collect []) = (next, some left))
    {limit remaining : Nat} :
    runPasses limit (remaining + 1) budget state = (next.beginPass, true) := by
  have after : next.collect [] = [] :=
    collect_nil_of_drain (coherent_preserved.pass coherent) drained
  rw [runPasses_succ something, drained]
  exact runPasses_of_quiet after ..

/-- Passes end in one of the three ways, as long as one pass is allowed. -/
theorem runPasses_ending (coherent : state.Coherent) {remaining : Nat} (allowed : 0 < remaining)
    (limit budget : Nat) :
    PassesEnding budget state (runPasses limit remaining budget state) := by
  obtain ⟨remaining, rfl⟩ := Nat.exists_eq_add_one.mpr allowed
  by_cases nothing : state.collect [] = []
  · rw [runPasses_of_quiet nothing]
    exact .quiet nothing
  · have ending := drain_ending budget state.beginPass (state.collect [])
    cases drained : state.beginPass.drain budget (state.collect []) with
    | mk next left =>
      rw [drained] at ending
      cases ending with
      | spent counted =>
        rw [runPasses_succ nothing, drained]
        exact .spent nothing counted
      | drained whole counted =>
        rw [runPasses_of_drained coherent nothing drained]
        exact .drained nothing (by omega) counted
          (collect_nil_of_drain (coherent_preserved.pass coherent) drained)

/-- The limit on passes is positive. -/
theorem passLimit_pos (given : Int) (spans : Nat) : 0 < passLimit given spans := by
  unfold passLimit leastPassLimit
  split <;> omega

/-- The budget of growths is at most one for every span in every pass. -/
theorem growthBudget_le (limit spans : Nat) : growthBudget limit spans ≤ limit * max 1 spans := by
  have product : ((limit * max 1 spans : Nat) : Int) = (limit : Int) * max 1 spans := by
    push_cast
    rfl
  unfold growthBudget
  rw [← product, Int64.toInt_ofInt, Int64.size, Int.bmod]
  split <;> omega

/-- A budget that a signed word holds is one growth for every span in every pass. -/
theorem growthBudget_eq {limit spans : Nat} (held : limit * max 1 spans < 2 ^ 63) :
    growthBudget limit spans = limit * max 1 spans := by
  have product : ((limit * max 1 spans : Nat) : Int) = (limit : Int) * max 1 spans := by
    push_cast
    rfl
  unfold growthBudget
  rw [← product, Int64.toInt_ofInt, Int64.size, Int.bmod_eq_of_le] <;> omega

/-- Passes that converge leave nothing that fires. -/
theorem PassesEnding.collect_nil {budget : Nat} {last : Relaxation}
    (ending : PassesEnding budget state (last, true)) : last.collect [] = [] := by
  cases ending with
  | quiet nothing => exact nothing
  | drained _ _ _ nothing => exact nothing

/-- Passes that converge have kept to the budget. -/
theorem PassesEnding.expansions_le {budget : Nat} {last : Relaxation}
    (ending : PassesEnding budget state (last, true)) :
    last.expansions ≤ state.expansions + budget := by
  cases ending with
  | quiet => exact Nat.le_add_right _ _
  | @drained next used _ within counted =>
    have growths : next.expansions = state.expansions + used := counted.expansions
    change next.expansions ≤ state.expansions + budget
    omega

/-- The budget of growths that a state has under a limit on passes. -/
abbrev budgetFor (state : Relaxation) (maxPasses : Int) : Nat :=
  growthBudget (passLimit maxPasses state.spans.length) state.spans.length

/-- The passes of a state from its first offsets on. -/
abbrev passesFor (state : Relaxation) (maxPasses : Int) : Relaxation × Bool :=
  runPasses (passLimit maxPasses state.spans.length) (passLimit maxPasses state.spans.length)
    (state.budgetFor maxPasses) state.assignOffsets

/-- How the passes of a state end. -/
theorem passesFor_ending (coherent : state.assignOffsets.Coherent) (maxPasses : Int) :
    PassesEnding (state.budgetFor maxPasses) state.assignOffsets (state.passesFor maxPasses) :=
  runPasses_ending coherent (passLimit_pos maxPasses state.spans.length) _ _

/-- Settling a state runs passes from its first offsets and, if they converge, assigns offsets once
more. -/
theorem settle_eq {last : Relaxation} {maxPasses : Int} {converged : Bool}
    (passes : state.passesFor maxPasses = (last, converged)) :
    state.settle maxPasses = if converged then last.assignOffsets else last := by
  unfold settle
  cases converged <;> simp [passes]

/-- A relaxation without a problem at the end is one whose passes converged. -/
theorem exists_passes_of_clean {maxPasses : Int} (coherent : state.assignOffsets.Coherent)
    (clean : (state.settle maxPasses).problems = []) :
    ∃ last, state.passesFor maxPasses = (last, true) ∧
      state.settle maxPasses = last.assignOffsets := by
  have ending := passesFor_ending coherent maxPasses
  cases passes : state.passesFor maxPasses with
  | mk last converged =>
    rw [passes] at ending
    have settled := settle_eq passes
    cases converged with
    | true => exact ⟨last, rfl, settled⟩
    | false =>
      rw [settled] at clean
      cases ending
      simp [breakOff] at clean

end Relaxation

end Assembler
