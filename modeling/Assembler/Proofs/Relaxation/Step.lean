import Assembler.Proofs.Relaxation.Contiguity

/-!
# What a relaxation can do

`Effect` lists what working on one span can do to a relaxation, and `process_effect` says that there
is nothing else. `Reaches` is the closure of everything a relaxation does; `reaches_settle` places
the end of every relaxation in it. Invariants are proved over `Effect` and carried along `Reaches`.
-/

namespace Assembler

variable {state : Relaxation} {place : Nat}

namespace Outcome

/-- What becomes of the span that asked for the growth. -/
def spanState : Outcome → SpanState
  | .settled _ => .retired
  | .watching _ | .failed .. => .active

/-- Why the growth was refused. -/
def error : Outcome → Option Error
  | .settled _ | .watching _ => none
  | .failed _ error => some error

/-- How many spans the growth settles for good. -/
def retirements : Outcome → Nat
  | .settled _ => 1
  | .watching _ | .failed .. => 0

end Outcome

namespace Relaxation

/-- The distance that a span sees: the one of its field, or the one that stands in for it. -/
def seenBy (state : Relaxation) (span : Span) : Int64 :=
  (state.distance span.field).getD unknownDistance

/-- The span at a place fires, and its chunk has not failed. -/
structure Firing (state : Relaxation) (place : Nat) (span : Span) (slot : Slot) : Prop where
  spanAt : state.spans[place]? = some span
  slotAt : state.slots[span.index]? = some slot
  sound : slot.error = none
  pending : state.isPending span = true

/-- Record the growth of a slot and the distance that its span saw. Nothing moves yet. -/
def advance (state : Relaxation) (place : Nat) (span : Span) (outcome : Outcome) : Relaxation :=
  { state with
    slots := state.slots.set span.index outcome.slot
    spans := state.spans.set place
      { span with seen := state.seenBy span, state := outcome.spanState }
    retired := state.retired + outcome.retirements }

/-- Give up a chunk that shrank. -/
def collapse (state : Relaxation) (index : Nat) (before after : UInt64) : Relaxation :=
  dropSpans
    { state.breakOff (.shrankBy index before after) with
      slots := state.slots.modify index fun slot => { slot with error := some .shrank } }
    index

/-- Count the growth of a chunk and move all that follows it. -/
def enlarge (state : Relaxation) (span : Span) (distance : Int64) (before after : UInt64) :
    Relaxation :=
  assignOffsets
    { state with
      expansions := state.expansions + 1
      growths := state.growths ++
        [{ index := span.index, span := span.purpose.id, distance, before, after }] }

/-- What working on the span at a place can do to a relaxation, and whether the section grew. -/
inductive Effect (state : Relaxation) (place : Nat) : Relaxation → Bool → Prop where
  /-- There is nothing to do. -/
  | idle (quiet : ∀ span slot, ¬ state.Firing place span slot) : Effect state place state false
  /-- The chunk cannot grow as the span asks. -/
  | failed {span : Span} {slot : Slot} {outcome : Outcome} {error : Error}
      (firing : state.Firing place span slot)
      (grown : slot.grow span (state.distance span.field) = outcome)
      (refused : outcome.error = some error) :
      Effect state place ((state.advance place span outcome).fail span.index error) false
  /-- The chunk shrank, which breaks a promise. -/
  | shrank {span : Span} {slot : Slot} {outcome : Outcome}
      (firing : state.Firing place span slot)
      (grown : slot.grow span (state.distance span.field) = outcome)
      (granted : outcome.error = none) (less : outcome.slot.total < slot.total) :
      Effect state place
        ((state.advance place span outcome).collapse span.index slot.total outcome.slot.total) false
  /-- The chunk changed, but takes up as many bytes as before. -/
  | kept {span : Span} {slot : Slot} {outcome : Outcome}
      (firing : state.Firing place span slot)
      (grown : slot.grow span (state.distance span.field) = outcome)
      (granted : outcome.error = none) (same : outcome.slot.total = slot.total) :
      Effect state place (state.advance place span outcome) false
  /-- The chunk grew, and all that follows it moved. -/
  | grew {span : Span} {slot : Slot} {outcome : Outcome}
      (firing : state.Firing place span slot)
      (grown : slot.grow span (state.distance span.field) = outcome)
      (granted : outcome.error = none) (more : slot.total < outcome.slot.total) :
      Effect state place
        ((state.advance place span outcome).enlarge span (state.seenBy span) slot.total
          outcome.slot.total) true

/-- Only active spans wait. -/
theorem active_of_isPending {span : Span}
    (pending : state.isPending span = true) : span.state = .active := by
  simp only [isPending, Bool.and_eq_true, decide_eq_true_eq] at pending
  exact pending.1

/-- The change of a slot without a refusal shrinks it, keeps its total or enlarges it. -/
theorem afterGrowth_effect {span : Span} {slot : Slot} {outcome : Outcome}
    (firing : state.Firing place span slot)
    (grown : slot.grow span (state.distance span.field) = outcome)
    (granted : outcome.error = none) :
    state.Effect place
      ((state.advance place span outcome).afterGrowth span (state.seenBy span) slot.total
        outcome.slot.total).1
      ((state.advance place span outcome).afterGrowth span (state.seenBy span) slot.total
        outcome.slot.total).2 := by
  unfold afterGrowth
  split
  case isTrue less => exact .shrank firing grown granted less
  case isFalse notLess =>
    split
    case isTrue more => exact .grew firing grown granted more
    case isFalse notMore =>
      have same : outcome.slot.total = slot.total :=
        UInt64.le_antisymm (UInt64.not_lt.mp notMore) (UInt64.not_lt.mp notLess)
      exact .kept firing grown granted same

/-- A span that does not fire, or whose chunk has failed, is passed over. -/
theorem process_of_quiet (quiet : ∀ span slot, ¬ state.Firing place span slot) :
    state.process place = (state, false) := by
  unfold process
  split
  case h_1 => rfl
  case h_2 span spanAt =>
    split
    case h_1 => rfl
    case h_2 slot slotAt =>
      by_cases stuck : (slot.error.isSome || !state.isPending span) = true
      · rw [if_pos stuck]
      · simp only [Bool.or_eq_true, Bool.not_eq_true', not_or, Bool.not_eq_true,
          Option.isSome_eq_false_iff, Option.isNone_iff_eq_none, Bool.not_eq_false] at stuck
        exact absurd ⟨spanAt, slotAt, stuck.1, stuck.2⟩ (quiet span slot)

/-- A span that fires lets its chunk change, and a refusal fails the chunk. -/
theorem process_of_firing {span : Span} {slot : Slot} {outcome : Outcome}
    (firing : state.Firing place span slot)
    (grown : slot.grow span (state.distance span.field) = outcome) :
    state.process place =
      match outcome.error with
      | some error => ((state.advance place span outcome).fail span.index error, false)
      | none => (state.advance place span outcome).afterGrowth span (state.seenBy span) slot.total
          outcome.slot.total := by
  have active := active_of_isPending firing.pending
  simp only [process, firing.spanAt, firing.slotAt, firing.sound, firing.pending, grown]
  cases outcome <;>
    simp [advance, Outcome.spanState, Outcome.retirements, Outcome.slot, Outcome.error, seenBy,
      active]

/-- Working on a span does what `Effect` lists. -/
theorem process_effect (state : Relaxation) (place : Nat) :
    state.Effect place (state.process place).1 (state.process place).2 := by
  by_cases fires : ∃ span slot, state.Firing place span slot
  · obtain ⟨span, slot, firing⟩ := fires
    cases refused : (slot.grow span (state.distance span.field)).error with
    | some error =>
      rw [process_of_firing firing rfl, refused]
      exact .failed firing rfl refused
    | none =>
      rw [process_of_firing firing rfl, refused]
      exact afterGrowth_effect firing rfl refused
  · simp only [not_exists] at fires
    rw [process_of_quiet fires]
    exact .idle fires

/-- Working on a span has one of the effects. -/
theorem effect_of_process {next : Relaxation} {grew : Bool}
    (processed : state.process place = (next, grew)) : state.Effect place next grew := by
  have effect := state.process_effect place
  rwa [processed] at effect

/-- Begin another pass. -/
def beginPass (state : Relaxation) : Relaxation := { state with passes := state.passes + 1 }

/-- What a relaxation can become, one thing done after the other. -/
inductive Reaches (start : Relaxation) : Relaxation → Prop where
  | refl : Reaches start start
  | work {state next : Relaxation} {place : Nat} {grew : Bool} (prior : Reaches start state)
      (effect : state.Effect place next grew) : Reaches start next
  | pass {state : Relaxation} (prior : Reaches start state) : Reaches start state.beginPass
  | stop {state : Relaxation} (prior : Reaches start state) (error : Error) :
      Reaches start (state.breakOff error)
  | assign {state : Relaxation} (prior : Reaches start state) : Reaches start state.assignOffsets

namespace Reaches

/-- What is reached from a state that is reached is reached. -/
theorem trans {start middle last : Relaxation} (first : Reaches start middle)
    (second : Reaches middle last) : Reaches start last := by
  induction second with
  | refl => exact first
  | work _ effect ih => exact .work ih effect
  | pass _ ih => exact .pass ih
  | stop _ error ih => exact .stop ih error
  | assign _ ih => exact .assign ih

end Reaches

/-- A property that nothing a relaxation does can break. -/
structure Preserved (holds : Relaxation → Prop) : Prop where
  work : ∀ {state next : Relaxation} {place : Nat} {grew : Bool}, holds state →
    state.Effect place next grew → holds next
  pass : ∀ {state : Relaxation}, holds state → holds state.beginPass
  stop : ∀ {state : Relaxation} (error : Error), holds state → holds (state.breakOff error)
  assign : ∀ {state : Relaxation}, holds state → holds state.assignOffsets

/-- A property that nothing breaks holds of everything that is reached. -/
theorem Preserved.of_reaches {holds : Relaxation → Prop} (preserved : Preserved holds)
    {start last : Relaxation} (reached : start.Reaches last) (initially : holds start) :
    holds last := by
  induction reached with
  | refl => exact initially
  | work _ effect ih => exact preserved.work ih effect
  | pass _ ih => exact preserved.pass ih
  | stop _ error ih => exact preserved.stop error ih
  | assign _ ih => exact preserved.assign ih

/-- Working up to the first growth only works on spans. -/
theorem reaches_firstGrowth (state : Relaxation) (queue : List Nat) :
    state.Reaches (state.firstGrowth queue).1 := by
  fun_induction firstGrowth state queue with
  | case1 => exact .refl
  | case2 state place rest next processed =>
    exact .work .refl (effect_of_process processed)
  | case3 state place rest next processed ih =>
    exact Reaches.trans (.work .refl (effect_of_process processed)) ih

/-- Draining a queue stays within what a relaxation can do. -/
theorem reaches_drain (budget : Nat) (state : Relaxation) (queue : List Nat) :
    state.Reaches (drain budget state queue).1 := by
  have worked := reaches_firstGrowth state queue
  fun_induction drain budget state queue with
  | case1 budget state queue next quiet => rwa [quiet] at worked
  | case2 state queue next rest growth =>
    rw [growth] at worked
    exact worked.stop _
  | case3 state queue next rest growth budget ih =>
    rw [growth] at worked
    exact worked.trans (ih (reaches_firstGrowth next _))

/-- Running passes stays within what a relaxation can do. -/
theorem reaches_runPasses (limit remaining budget : Nat) (state : Relaxation) :
    state.Reaches (runPasses limit remaining budget state).1 := by
  fun_induction runPasses limit remaining budget state with
  | case1 => exact .pass .refl
  | case2 => exact .stop (.pass .refl) _
  | case3 budget state begun queue something remaining next stopped =>
    have drained := reaches_drain budget begun queue
    rw [stopped] at drained
    exact Reaches.trans (.pass .refl) drained
  | case4 budget state begun queue something remaining next left finished ih =>
    have drained := reaches_drain budget begun queue
    rw [finished] at drained
    exact (Reaches.trans (.pass .refl) drained).trans ih

/-- The end of a relaxation is reached from its first assignment of offsets. -/
theorem reaches_settle (state : Relaxation) (maxPasses : Int) :
    state.assignOffsets.Reaches (state.settle maxPasses) := by
  have reached := reaches_runPasses (passLimit maxPasses state.spans.length)
    (passLimit maxPasses state.spans.length)
    (growthBudget (passLimit maxPasses state.spans.length) state.spans.length) state.assignOffsets
  unfold settle
  dsimp only
  split
  case h_1 settled finished =>
    rw [finished] at reached
    exact reached.assign
  case h_2 stopped refused => rwa [refused] at reached

end Relaxation

end Assembler
