import Assembler.Relaxation

/-!
# Exchanging what spans watch

The relaxation reads the field of a span only to measure a distance. Exchanging fields for others
with the same distance, which may be none, therefore changes nothing but the fields: every step
commutes with the exchange, and so does the whole relaxation (`settle_retarget`).
-/

namespace Assembler

/-- A span that watches another field. -/
def Span.retarget (exchange : Field → Field) (span : Span) : Span :=
  { span with field := exchange span.field }

namespace Relaxation

/-- A relaxation whose spans watch other fields. -/
def retarget (exchange : Field → Field) (state : Relaxation) : Relaxation :=
  { state with spans := state.spans.map (Span.retarget exchange) }

/-- An exchange of fields that keeps every distance. -/
def KeepsDistance (exchange : Field → Field) : Prop :=
  ∀ (state : Relaxation) (field : Field), state.distance (exchange field) = state.distance field

section

variable {exchange : Field → Field}

section

variable (state : Relaxation)
include state

@[simp] theorem distance_retarget (field : Field) :
    (state.retarget exchange).distance field = state.distance field := rfl

@[simp] theorem assignOffsets_retarget :
    (state.retarget exchange).assignOffsets = state.assignOffsets.retarget exchange := rfl

@[simp] theorem dropSpans_retarget (index : Nat) :
    (state.retarget exchange).dropSpans index = (state.dropSpans index).retarget exchange := by
  simp only [dropSpans, retarget, List.map_map]
  congr 1
  apply List.map_congr_left
  intro span _
  by_cases watched : span.index = index ∧ span.state = .active <;>
    simp [Span.retarget, watched]

@[simp] theorem fail_retarget (index : Nat) (error : Error) :
    (state.retarget exchange).fail index error = (state.fail index error).retarget exchange :=
  dropSpans_retarget
    { state with
      slots := state.slots.modify index fun slot => { slot with error := some error }
      problems := state.problems ++ [{ index := some index, error }] } index

/-- Replacing a slot and a span commutes with the exchange. -/
theorem set_retarget (slots : List Slot) (place retired : Nat) (span : Span) :
    { state.retarget exchange with
      slots
      spans := (state.retarget exchange).spans.set place (span.retarget exchange)
      retired } =
    retarget exchange { state with slots, spans := state.spans.set place span, retired } := by
  simp only [retarget, List.map_set]

/-- What a growth wakes does not depend on targets. -/
theorem afterGrowth_retarget (span : Span) (distance : Int64) (before after : UInt64) :
    (state.retarget exchange).afterGrowth (span.retarget exchange) distance before after =
      ((state.afterGrowth span distance before after).1.retarget exchange,
        (state.afterGrowth span distance before after).2) := by
  unfold afterGrowth
  split
  · exact congrArg (·, false) (dropSpans_retarget
      { state.breakOff (.shrankBy span.index before after) with
        slots := state.slots.modify span.index fun slot => { slot with error := some .shrank } }
      span.index)
  · split <;> rfl

end

variable (keeps : KeepsDistance exchange)

include keeps

/-- Whether a span waits does not depend on targets. -/
theorem isPending_retarget (state : Relaxation) (span : Span) :
    (state.retarget exchange).isPending (span.retarget exchange) = state.isPending span := by
  simp only [isPending, Span.retarget, distance_retarget, keeps state span.field]
  rfl

/-- The spans that wait are the same. -/
theorem collect_retarget (state : Relaxation) (waiting : List Nat) :
    (state.retarget exchange).collect waiting = state.collect waiting := by
  simp only [collect]
  rw [show (state.retarget exchange).spans.zipIdx =
    state.spans.zipIdx.map (Prod.map (Span.retarget exchange) id) from List.zipIdx_map ..,
    List.filter_map, List.map_map]
  congr 1
  apply List.filter_congr
  intro entry _
  simp only [Function.comp, Prod.map_fst, Prod.map_snd, id, isPending_retarget keeps]

/-- Letting a chunk grow for a span commutes with the exchange. -/
theorem process_retarget (state : Relaxation) (place : Nat) :
    (state.retarget exchange).process place =
      ((state.process place).1.retarget exchange, (state.process place).2) := by
  unfold process
  rw [show (state.retarget exchange).spans[place]? =
    (state.spans[place]?).map (Span.retarget exchange) from List.getElem?_map ..]
  cases state.spans[place]? with
  | none => rfl
  | some span =>
    simp only [Option.map_some, isPending_retarget keeps]
    rw [show (state.retarget exchange).slots[(span.retarget exchange).index]? =
      state.slots[span.index]? from rfl]
    cases state.slots[span.index]? with
    | none => rfl
    | some slot =>
      dsimp only
      split
      · rfl
      · have measured : (state.retarget exchange).distance (span.retarget exchange).field =
            state.distance span.field := keeps state span.field
        have grows : slot.grow (span.retarget exchange) (state.distance span.field) =
            slot.grow span (state.distance span.field) := rfl
        rw [measured, grows]
        have seen := @set_retarget exchange state
          (state.slots.set span.index (slot.grow span (state.distance span.field)).slot) place
          state.retired { span with seen := (state.distance span.field).getD unknownDistance }
        cases outcome : slot.grow span (state.distance span.field) with
        | failed grown error =>
          rw [outcome] at seen
          exact (congrArg (fun next : Relaxation => (next.fail span.index error, false)) seen).trans
            (congrArg (·, false) (fail_retarget ..))
        | watching grown =>
          rw [outcome] at seen
          exact (congrArg (fun next : Relaxation => next.afterGrowth (span.retarget exchange)
            ((state.distance span.field).getD unknownDistance) slot.total grown.total) seen).trans
              (afterGrowth_retarget ..)
        | settled grown =>
          rw [outcome] at seen
          have retired := congrArg (fun next : Relaxation =>
            ({ next with
              spans := next.spans.set place (Span.retarget exchange
                { span with
                  seen := (state.distance span.field).getD unknownDistance
                  state := .retired })
              retired := next.retired + 1 } : Relaxation)) seen
          exact (congrArg (fun next : Relaxation => next.afterGrowth (span.retarget exchange)
            ((state.distance span.field).getD unknownDistance) slot.total grown.total)
              (retired.trans (set_retarget ..))).trans (afterGrowth_retarget ..)

/-- Working through a queue up to the first growth commutes with the exchange. -/
theorem firstGrowth_retarget (state : Relaxation) (queue : List Nat) :
    (state.retarget exchange).firstGrowth queue =
      ((state.firstGrowth queue).1.retarget exchange, (state.firstGrowth queue).2) := by
  induction queue generalizing state with
  | nil => rfl
  | cons place rest ih =>
    rw [firstGrowth, firstGrowth, process_retarget keeps]
    cases processed : state.process place with
    | mk next grew =>
      cases grew with
      | true => rfl
      | false => exact ih next

/-- A queue is worked off alike. -/
theorem drain_retarget (budget : Nat) (state : Relaxation) (queue : List Nat) :
    (state.retarget exchange).drain budget queue =
      ((state.drain budget queue).1.retarget exchange, (state.drain budget queue).2) := by
  induction budget generalizing state queue with
  | zero =>
    rw [drain, drain, firstGrowth_retarget keeps]
    cases grown : state.firstGrowth queue with
    | mk next rest => cases rest <;> rfl
  | succ budget ih =>
    rw [drain, drain, firstGrowth_retarget keeps]
    cases grown : state.firstGrowth queue with
    | mk next rest =>
      cases rest with
      | none => rfl
      | some rest =>
        dsimp only
        rw [collect_retarget keeps]
        exact ih next _

/-- Passes run alike. -/
theorem runPasses_retarget (limit remaining budget : Nat) (state : Relaxation) :
    runPasses limit remaining budget (state.retarget exchange) =
      ((runPasses limit remaining budget state).1.retarget exchange,
        (runPasses limit remaining budget state).2) := by
  have collected (state : Relaxation) : ({ state.retarget exchange with
      passes := (state.retarget exchange).passes + 1 } : Relaxation).collect [] =
        ({ state with passes := state.passes + 1 } : Relaxation).collect [] :=
    collect_retarget keeps { state with passes := state.passes + 1 } []
  induction remaining generalizing budget state with
  | zero =>
    rw [runPasses, runPasses, collected]
    split <;> rfl
  | succ remaining ih =>
    rw [runPasses, runPasses, collected]
    split
    · rfl
    · have drained := drain_retarget keeps budget { state with passes := state.passes + 1 }
        (({ state with passes := state.passes + 1 } : Relaxation).collect [])
      change drain budget { state.retarget exchange with
        passes := (state.retarget exchange).passes + 1 } _ = _ at drained
      rw [drained]
      cases passed : drain budget { state with passes := state.passes + 1 }
          (({ state with passes := state.passes + 1 } : Relaxation).collect []) with
      | mk next left =>
        cases left with
        | none => rfl
        | some left => exact ih left next

/-- Settling commutes with the exchange of targets. -/
theorem settle_retarget (state : Relaxation) (maxPasses : Int) :
    (state.retarget exchange).settle maxPasses = (state.settle maxPasses).retarget exchange := by
  have count : (state.retarget exchange).spans.length = state.spans.length := List.length_map ..
  simp only [settle, count, assignOffsets_retarget, runPasses_retarget keeps]
  cases passed : runPasses (passLimit maxPasses state.spans.length)
      (passLimit maxPasses state.spans.length)
      (growthBudget (passLimit maxPasses state.spans.length) state.spans.length)
      state.assignOffsets with
  | mk last converged => cases converged <;> rfl

end

end Relaxation

end Assembler
