import Assembler.Machine.Encoding
import Assembler.Proofs.Layout.Blame
import Assembler.Proofs.Layout.Start
import Assembler.Proofs.Relaxation.Termination

/-!
# Layouts take at most two passes

The first pass leaves nothing for the second, so a layout ends after two passes at most, and only
its budget of growths can stop it before nothing fires (`layout_within_two_passes`).
-/

namespace Assembler

variable {start last : Relaxation} {budget : Nat} {converged : Bool}

namespace Relaxation

/-- How a relaxation ends: the number of passes and growths it took, and the problems that speak of
convergence. -/
structure Settled (start last : Relaxation) (budget : Nat) (converged : Bool) : Prop where
  passes : last.passes ≤ 2
  onePass : converged = true → (last.passes = 1 ↔ start.collect [] = [])
  within : converged = true → last.expansions ≤ budget
  convergent : converged = true → Convergent last.problems
  stopped : converged = false → last.expansions = budget + 1 ∧
    ∃ others pending, Convergent others ∧
      last.problems =
        others ++ [{ index := none, error := .budgetSpent last.expansions pending }]

/-- A relaxation that has done nothing yet ends within two passes, at the end of its passes or at
the assignment of offsets after them. -/
theorem settled_of_passesEnding (fresh : start.passes = 0) (unused : start.expansions = 0)
    (convergent : Convergent start.problems)
    (ending : PassesEnding budget start (last, converged)) :
    Settled start (if converged then last.assignOffsets else last) budget converged := by
  cases ending with
  | quiet nothing =>
    have assigned := counted_assignOffsets start.beginPass
    have passes : start.beginPass.assignOffsets.passes = 1 := by
      rw [assigned.passes, beginPass, fresh]
    have expansions : start.beginPass.assignOffsets.expansions = 0 := by
      rw [assigned.expansions, beginPass, unused]
    exact
      { passes := by simp [passes]
        onePass := fun _ => by simp [passes, nothing]
        within := fun _ => by simp [expansions]
        convergent := fun _ => assigned.convergent convergent
        stopped := fun impossible => by cases impossible }
  | @spent next pending something counted =>
    have passes : next.passes = 1 := by rw [counted.passes, beginPass, fresh]
    have expansions : next.expansions = budget + 1 := by
      rw [counted.expansions, beginPass, unused, Nat.zero_add]
    exact
      { passes := by simp [breakOff, passes]
        onePass := fun impossible => by cases impossible
        within := fun impossible => by cases impossible
        convergent := fun impossible => by cases impossible
        stopped := fun _ =>
          ⟨expansions, next.problems, pending, counted.convergent convergent, rfl⟩ }
  | @drained next used something within counted nothing =>
    -- The second pass is begun, and counted, only to find that nothing fires.
    have assigned := counted_assignOffsets next.beginPass
    have passes : next.beginPass.assignOffsets.passes = 2 := by
      rw [assigned.passes, beginPass, counted.passes, beginPass, fresh]
    have expansions : next.beginPass.assignOffsets.expansions = used := by
      rw [assigned.expansions, beginPass, counted.expansions, beginPass, unused, Nat.zero_add,
        Nat.add_zero]
    exact
      { passes := by simp [passes]
        onePass := fun _ => by simp [passes, something]
        within := fun _ => by simp [expansions]; omega
        convergent := fun _ => assigned.convergent (counted.convergent convergent)
        stopped := fun impossible => by cases impossible }

/-- A relaxation is stopped by the first growth beyond its budget, and by nothing else. -/
theorem Settled.exceeded_iff (settled : Settled start last budget converged) :
    budget < last.expansions ↔ converged = false := by
  cases converged with
  | true => simpa using settled.within rfl
  | false => simp [(settled.stopped rfl).1]

/-- Only a relaxation that was stopped has a problem that speaks of convergence, and that problem is
the budget of growths. -/
theorem Settled.budgetSpent (settled : Settled start last budget converged)
    {problem : LayoutProblem} (member : problem ∈ last.problems)
    (blamed : Cause.noConvergence ∈ problem.error.causes) :
    converged = false ∧ ∃ pending, problem.error = .budgetSpent last.expansions pending := by
  cases converged with
  | true => exact absurd blamed (settled.convergent rfl problem member)
  | false =>
    obtain ⟨_, others, pending, convergent, problems⟩ := settled.stopped rfl
    rw [problems] at member
    rcases List.mem_append.mp member with other | last
    · exact absurd blamed (convergent problem other)
    · rw [List.mem_singleton.mp last]
      exact ⟨rfl, pending, rfl⟩

end Relaxation

/-- What is reported of a problem is its error. -/
@[simp] theorem Section.reportProblem_error (sect : Section) (problem : LayoutProblem) :
    (sect.reportProblem problem).error = problem.error := by
  unfold Section.reportProblem
  split <;> rfl

/-- A report that speaks of convergence is that of a relaxation that exceeded its budget. -/
theorem Relaxation.Settled.reported (settled : Settled start last budget converged)
    {sect : Section} {prepared : Prepared} {diagnostic : Diagnostic}
    (member : diagnostic ∈ (sect.recorded prepared last).diagnostics)
    (blamed : Cause.noConvergence ∈ diagnostic.error.causes) :
    converged = false ∧ budget < last.expansions ∧
      ∃ pending, diagnostic.error = .budgetSpent last.expansions pending := by
  obtain ⟨problem, problemMember, rfl⟩ := List.mem_map.mp member
  rw [Section.reportProblem_error] at blamed ⊢
  obtain ⟨stopped, spent⟩ := settled.budgetSpent problemMember blamed
  exact ⟨stopped, settled.exceeded_iff.mpr stopped, spent⟩

/-- A relaxation that was stopped is reported so. -/
theorem Relaxation.Settled.reported_iff (settled : Settled start last budget converged)
    (sect : Section) (prepared : Prepared) :
    converged = false ↔ ∃ diagnostic ∈ (sect.recorded prepared last).diagnostics,
      Cause.noConvergence ∈ diagnostic.error.causes := by
  constructor
  · intro stopped
    obtain ⟨_, others, pending, _, problems⟩ := settled.stopped stopped
    refine ⟨_, List.mem_map_of_mem (problems ▸ List.mem_concat_self), ?_⟩
    simp [Error.causes]
  · rintro ⟨diagnostic, member, blamed⟩
    exact (settled.reported member blamed).1

/-- No chunk fails to be prepared for want of convergence. -/
theorem convergent_prepareAll {table : SymbolTable} {sectionId : Nat} {chunks : List Chunk}
    {prepared : Prepared} (success : prepareAll table sectionId 0 chunks = .ok prepared) :
    Relaxation.Convergent prepared.problems := by
  intro problem member
  rw [(prepareAll_eq success).2.2, List.mem_filterMap] at member
  obtain ⟨⟨chunk, index⟩, _, found⟩ := member
  obtain ⟨error, failed, rfl⟩ := Option.map_eq_some_iff.mp found
  intro blamed
  have among := preparationProblem_causes failed blamed
  simp [preparationCauses] at among

/-- How the relaxation of a section ends. -/
theorem exists_settled {table : SymbolTable} {id : Nat} {chunks : List Chunk} {prepared : Prepared}
    (resolved : prepareAll table id 0 chunks = .ok prepared) (maxPasses : Int) :
    ∃ converged, Relaxation.Settled (prepared.relaxation id).assignOffsets
      ((prepared.relaxation id).settle maxPasses)
      (Relaxation.growthBudget (Relaxation.passLimit maxPasses prepared.spans.length)
        prepared.spans.length) converged := by
  have coherent := (coherent_relaxation resolved).assignOffsets
  have convergent :=
    (Relaxation.counted_assignOffsets (prepared.relaxation id)).convergent
      (convergent_prepareAll resolved)
  let spans := (prepared.relaxation id).spans.length
  have ending := Relaxation.runPasses_ending coherent (Relaxation.passLimit_pos maxPasses spans)
    (Relaxation.passLimit maxPasses spans)
    (Relaxation.growthBudget (Relaxation.passLimit maxPasses spans) spans)
  have settled := Relaxation.settled_of_passesEnding rfl rfl convergent ending
  have relaxed : (prepared.relaxation id).settle maxPasses = _ := Relaxation.settle_eq rfl
  rw [← relaxed] at settled
  exact ⟨_, settled⟩

/-- A layout whose references resolve comes to an end, after two passes at most, and after one pass
exactly when nothing fires under the first offsets. Only the budget of growths can stop it early,
and what does not converge is reported as such. -/
theorem layout_within_two_passes {sect : Section} {table : SymbolTable} {id : Nat}
    {prepared : Prepared} (resolved : prepareAll table id 0 sect.chunks = .ok prepared)
    (maxPasses : Int) :
    let start := (prepared.relaxation id).assignOffsets
    let limit := Relaxation.passLimit maxPasses prepared.spans.length
    let budget := (Int64.ofInt ((limit : Int) * max 1 prepared.spans.length)).toInt
    ∃ turns state converged layout,
      (Relaxation.Loop.turn limit budget)^[turns] ⟨start, .pass⟩ = ⟨state, .done converged⟩ ∧
      (converged = true → ∀ span ∈ state.spans, state.isPending span = false) ∧
      sect.layout table maxPasses id = .ok layout ∧
      layout.sect.stats.passes = state.passes ∧ layout.sect.stats.expansions = state.expansions ∧
      layout.sect.stats.passes ≤ 2 ∧
      (converged = true → (layout.sect.stats.passes = 1 ↔
        ∀ span ∈ start.spans, start.isPending span = false)) ∧
      layout.sect.stats.expansions ≤ limit * max 1 prepared.spans.length + 1 ∧
      (∀ diagnostic ∈ layout.diagnostics, ∀ passes pending,
        diagnostic.error ≠ .passLimit passes pending) ∧
      (converged = false ↔ ∃ diagnostic ∈ layout.diagnostics,
        Cause.noConvergence ∈ diagnostic.error.causes) ∧
      ∀ diagnostic ∈ layout.diagnostics, Cause.noConvergence ∈ diagnostic.error.causes →
        budget < layout.sect.stats.expansions ∧
          ∃ pending, diagnostic.error = .budgetSpent layout.sect.stats.expansions pending := by
  intro start limit budget
  have coherent : start.Coherent := (coherent_relaxation resolved).assignOffsets
  have convergent : Relaxation.Convergent start.problems :=
    (Relaxation.counted_assignOffsets _).convergent (convergent_prepareAll resolved)
  have ending := Relaxation.runPasses_ending coherent
    (Relaxation.passLimit_pos maxPasses prepared.spans.length) limit budget.toNat
  obtain ⟨turns, turned⟩ : Relaxation.Loop.Comes limit budget ⟨start, .pass⟩ _ :=
    Relaxation.Loop.comes_of_runPasses (Nat.zero_add limit) (Nat.zero_add budget.toNat)
  cases passes : Relaxation.runPasses limit limit budget.toNat start with
  | mk state converged =>
    rw [passes] at ending turned
    have settled := Relaxation.settled_of_passesEnding rfl rfl convergent ending
    have relaxed : (prepared.relaxation id).settle maxPasses = _ := Relaxation.settle_eq passes
    rw [← relaxed] at settled
    have counters : (((prepared.relaxation id).settle maxPasses).passes = state.passes) ∧
        ((prepared.relaxation id).settle maxPasses).expansions = state.expansions := by
      rw [relaxed]
      cases converged <;> exact ⟨rfl, rfl⟩
    refine ⟨turns, state, converged, _, turned, ?_, layout_eq_ok_iff.mpr ⟨prepared, resolved, rfl⟩,
      counters.1, counters.2, settled.passes, ?_, ?_, ?_, ?_, ?_⟩
    · rintro rfl
      exact Relaxation.collect_nil_iff.mp ending.collect_nil
    · intro reached
      rw [← Relaxation.collect_nil_iff]
      exact settled.onePass reached
    · have within : ((prepared.relaxation id).settle maxPasses).expansions ≤ budget.toNat + 1 := by
        cases converged with
        | true => exact (settled.within rfl).trans (Nat.le_succ _)
        | false => exact Nat.le_of_eq (settled.stopped rfl).1
      exact within.trans (Nat.succ_le_succ (Relaxation.growthBudget_le limit _))
    · intro diagnostic member passes pending same
      obtain ⟨_, _, other, spent⟩ := settled.reported member (by simp [same, Error.causes])
      rw [spent] at same
      cases same
    · exact settled.reported_iff sect prepared
    · intro diagnostic member blamed
      obtain ⟨_, exceeded, spent⟩ := settled.reported member blamed
      refine ⟨?_, spent⟩
      change budget < ((prepared.relaxation id).settle maxPasses).expansions
      omega

/-- A jump over 200 bytes, which its short form does not reach. -/
def distantJump : Section where
  name := ".text"
  chunks :=
    [{ body := .branch (Machine.jmp (.ofLocation ⟨0, 2, 0⟩)) },
      { body := .reserve (.ofInt 200) 1 }]

/-- The distant jump has one span, which fires under the first offsets; its layout takes two passes
and one growth, well within the budget. -/
theorem distantJump_within_two_passes :
    ∃ prepared, prepareAll {} 0 0 distantJump.chunks = .ok prepared ∧ prepared.spans.length = 1 ∧
      ∃ layout, distantJump.layout {} 0 0 = .ok layout ∧ layout.sect.stats.passes ≤ 2 ∧
        layout.sect.stats.expansions ≤ Relaxation.passLimit 0 1 * 1 + 1 ∧
        (distantJump.layout {} 0 0).toOption.map
          (fun layout => (layout.sect.stats.passes, layout.sect.stats.expansions)) =
            some (2, 1) := by
  obtain ⟨prepared, resolved, one⟩ := exists_ok_of_any
    (p := fun prepared => prepared.spans.length = 1) (prepareAll {} 0 0 distantJump.chunks)
    (by decide +kernel)
  obtain ⟨_, _, _, layout, _, _, success, _, _, passes, _, expansions, _⟩ :=
    layout_within_two_passes resolved 0
  rw [one] at expansions
  exact ⟨prepared, resolved, one, layout, success, passes, expansions, by decide +kernel⟩

end Assembler
