import Assembler.Proofs.Relaxation.Convergence
import Mathlib.Logic.Function.Iterate

/-!
# The loops of a relaxation end

`Loop.turn` is one turn of the two nested loops of a relaxation: begin a pass, or take one span from
the queue. Nothing in it counts down; the limits are held against the counters of the relaxation,
and the queue may get longer with every turn. `comes_of_runPasses` says that the turns come to an
end, and with what `runPasses` returns.
-/

namespace Assembler.Relaxation

variable {next : Relaxation} {queue : List Nat}

variable {state : Relaxation}

/-- Where the loops stand. -/
inductive Phase where
  /-- A pass is to begin. -/
  | pass
  /-- The spans at these places wait. -/
  | queue (waiting : List Nat)
  /-- The loops were left; whether nothing fired any more. -/
  | done (converged : Bool)
deriving DecidableEq

/-- A relaxation inside its loops. -/
structure Loop where
  state : Relaxation
  phase : Phase
deriving DecidableEq

namespace Loop

/-- After a growth, go on with the spans that fire now, unless the budget was exceeded. -/
def charge (budget : Int) (next : Relaxation) (rest : List Nat) : Loop :=
  if budget < next.expansions then
    ⟨next.breakOff (.budgetSpent next.expansions rest.length), .done false⟩
  else ⟨next, .queue (rest ++ next.collect rest)⟩

/-- One turn of the loops, with a limit on passes and a budget of growths. -/
def turn (limit : Nat) (budget : Int) (loop : Loop) : Loop :=
  match loop.phase with
  | .done _ => loop
  | .pass =>
    let begun := loop.state.beginPass
    let waiting := begun.collect []
    if waiting.isEmpty then ⟨begun, .done true⟩
    else if limit < begun.passes then
      ⟨begun.breakOff (.passLimit limit waiting.length), .done false⟩
    else ⟨begun, .queue waiting⟩
  | .queue [] => ⟨loop.state, .pass⟩
  | .queue (place :: rest) =>
    match loop.state.process place with
    | (next, false) => ⟨next, .queue rest⟩
    | (next, true) => charge budget next rest

/-- The loops come from one point to another. -/
def Comes (limit : Nat) (budget : Int) (first last : Loop) : Prop :=
  ∃ turns, (turn limit budget)^[turns] first = last

variable {limit : Nat} {budget : Int}

/-- A turn in front of a run. -/
theorem Comes.turn {first second last : Loop} (next : first.turn limit budget = second)
    (later : Comes limit budget second last) : Comes limit budget first last := by
  obtain ⟨turns, rfl⟩ := later
  exact ⟨turns + 1, by rw [Function.iterate_succ_apply, next]⟩

/-- One run after another. -/
theorem Comes.trans {first second last : Loop} (earlier : Comes limit budget first second)
    (later : Comes limit budget second last) : Comes limit budget first last := by
  obtain ⟨before, rfl⟩ := earlier
  obtain ⟨after, rfl⟩ := later
  exact ⟨after + before, Function.iterate_add_apply ..⟩

/-- A queue without a growth is worked off. -/
theorem comes_of_quiet
    (quiet : state.firstGrowth queue = (next, none)) :
    Comes limit budget ⟨state, .queue queue⟩ ⟨next, .queue []⟩ := by
  fun_induction firstGrowth state queue with
  | case1 state =>
    cases quiet
    exact ⟨0, rfl⟩
  | case2 state place rest after processed => cases quiet
  | case3 state place rest after processed ih =>
    exact .turn (by simp [Loop.turn, processed]) (ih quiet)

/-- A queue with a growth comes to the test of the budget. -/
theorem comes_of_growth {rest : List Nat}
    (growth : state.firstGrowth queue = (next, some rest)) :
    Comes limit budget ⟨state, .queue queue⟩ (charge budget next rest) := by
  fun_induction firstGrowth state queue with
  | case1 state => cases growth
  | case2 state place others after processed =>
    cases growth
    exact .turn (by simp [Loop.turn, processed, charge]) ⟨0, rfl⟩
  | case3 state place others after processed ih =>
    exact .turn (by simp [Loop.turn, processed]) (ih growth)

/-- The loop over a queue ends: the queue runs out or the budget does. -/
theorem comes_of_drain {left : Nat} {rest : Option Nat}
    (drained : drain left state queue = (next, rest))
    (remains : state.expansions + left = budget.toNat) :
    Comes limit budget ⟨state, .queue queue⟩
      ⟨next, rest.elim (.done false) fun _ => .queue []⟩ := by
  fun_induction drain left state queue with
  | case1 left state queue after quiet =>
    cases drained
    exact comes_of_quiet quiet
  | case2 state queue after others growth =>
    cases drained
    have counted : after.expansions = state.expansions + 1 :=
      (counted_firstGrowth growth).expansions
    have overspent : charge budget after others = ⟨_, .done false⟩ := if_pos (by omega)
    exact overspent ▸ comes_of_growth growth
  | case3 state queue after others growth left ih =>
    have counted : after.expansions = state.expansions + 1 :=
      (counted_firstGrowth growth).expansions
    have within : charge budget after others = ⟨after, _⟩ := if_neg (by omega)
    exact (within ▸ comes_of_growth growth).trans (ih drained (by omega))

/-- A pass with nothing waiting is the last. -/
theorem turn_of_quiet (nothing : state.collect [] = []) :
    turn limit budget ⟨state, .pass⟩ = ⟨state.beginPass, .done true⟩ := by
  simp [turn, nothing]

/-- A pass above the limit breaks off. -/
theorem turn_of_exceeded (something : state.collect [] ≠ [])
    (exceeded : limit < state.beginPass.passes) :
    turn limit budget ⟨state, .pass⟩ =
      ⟨state.beginPass.breakOff (.passLimit limit (state.collect []).length), .done false⟩ := by
  simp [turn, something, exceeded]

/-- A pass within the limit begins with all that fires. -/
theorem turn_of_firing (something : state.collect [] ≠ [])
    (within : ¬ limit < state.beginPass.passes) :
    turn limit budget ⟨state, .pass⟩ = ⟨state.beginPass, .queue (state.collect [])⟩ := by
  simp [turn, something, within]

/-- Both loops end, with what running the passes gives. -/
theorem comes_of_runPasses {remaining left : Nat} (allowed : state.passes + remaining = limit)
    (remains : state.expansions + left = budget.toNat) :
    Comes limit budget ⟨state, .pass⟩
      ⟨(runPasses limit remaining left state).1,
        .done (runPasses limit remaining left state).2⟩ := by
  fun_induction runPasses limit remaining left state with
  | case1 remaining left state begun queue nothing =>
    exact .turn (turn_of_quiet (List.isEmpty_iff.mp nothing)) ⟨0, rfl⟩
  | case2 left state begun queue something =>
    have exceeded : limit < begun.passes := Nat.lt_succ_of_le (Nat.le_of_eq allowed.symm)
    exact .turn (turn_of_exceeded (mt List.isEmpty_iff.mpr something) exceeded) ⟨0, rfl⟩
  | case3 left state begun queue something remaining next stopped =>
    have within : ¬ limit < begun.passes := by
      change ¬ limit < state.passes + 1
      omega
    have queued : Comes limit budget _ _ := comes_of_drain stopped remains
    exact .turn (turn_of_firing (mt List.isEmpty_iff.mpr something) within) queued
  | case4 left state begun queue something remaining next kept finished ih =>
    have within : ¬ limit < begun.passes := by
      change ¬ limit < state.passes + 1
      omega
    have queued : Comes limit budget _ _ := comes_of_drain finished remains
    -- What the pass took from the budget is what the counter gained.
    have ending := drain_ending left begun queue
    rw [finished] at ending
    cases ending with
    | @drained _ used _ whole counted =>
      have passes : next.passes = state.passes + 1 := counted.passes
      have expansions : next.expansions = state.expansions + used := counted.expansions
      have again := ih (by omega) (by omega)
      exact .turn (turn_of_firing (mt List.isEmpty_iff.mpr something) within)
        (queued.trans (.turn rfl again))

/-- What a turn of the loops can do to a relaxation. -/
inductive TurnEffect (loop : Loop) : Relaxation → Prop where
  /-- The loops were left, or the queue is empty. -/
  | still (idle : ∀ place rest, loop.phase ≠ .queue (place :: rest)) : TurnEffect loop loop.state
  | begun (passing : loop.phase = .pass) : TurnEffect loop loop.state.beginPass
  /-- The limit on passes is exceeded. -/
  | exceeded (passing : loop.phase = .pass) (passes pending : Nat) :
      TurnEffect loop (loop.state.beginPass.breakOff (.passLimit passes pending))
  /-- The span that is next in the queue was worked on. -/
  | worked {place : Nat} {rest : List Nat} {next : Relaxation} {grew : Bool}
      (queued : loop.phase = .queue (place :: rest)) (effect : loop.state.Effect place next grew) :
      TurnEffect loop next
  /-- The growth of a chunk exceeded the budget. -/
  | spent {place : Nat} {rest : List Nat} {next : Relaxation} {grew : Bool}
      (queued : loop.phase = .queue (place :: rest)) (effect : loop.state.Effect place next grew)
      (growths pending : Nat) : TurnEffect loop (next.breakOff (.budgetSpent growths pending))

/-- A turn of the loops does what `TurnEffect` lists. -/
theorem turn_effect (loop : Loop) : TurnEffect loop (loop.turn limit budget).state := by
  obtain ⟨state, phase⟩ := loop
  cases phase with
  | done converged => exact .still fun _ _ => nofun
  | pass =>
    simp only [turn]
    split
    · exact .begun rfl
    · split
      · exact .exceeded rfl _ _
      · exact .begun rfl
  | queue waiting =>
    cases waiting with
    | nil => exact .still fun _ _ => nofun
    | cons place rest =>
      cases processed : state.process place with
      | mk next grew =>
        have effect := effect_of_process processed
        simp only [turn, processed]
        cases grew with
        | false => exact .worked rfl effect
        | true =>
          dsimp only [charge]
          split
          · exact .spent rfl effect _ _
          · exact .worked rfl effect

/-- The turns of the loops stay within what a relaxation can do. -/
theorem reaches_turns (first : Loop) (turns : Nat) :
    first.state.Reaches ((turn limit budget)^[turns] first).state := by
  induction turns with
  | zero => exact .refl
  | succ turns ih =>
    rw [Function.iterate_succ_apply']
    have effect : TurnEffect _ (turn limit budget ((turn limit budget)^[turns] first)).state :=
      turn_effect _
    generalize (turn limit budget ((turn limit budget)^[turns] first)).state = next at effect ⊢
    cases effect with
    | still idle => exact ih
    | begun passing => exact ih.pass
    | exceeded passing passes pending => exact ih.pass.stop _
    | worked queued effect => exact ih.work effect
    | spent queued effect growths pending => exact (ih.work effect).stop _

end Loop

end Assembler.Relaxation
