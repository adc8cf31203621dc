import Assembler.Chunk.Slot
import Assembler.Span

/-!
# Relaxation

The relaxation lets chunks grow until no watched distance calls for more. It sees slots and spans
only, never what the chunks hold. Chunks start in their shortest form and only grow, so it ends:
each growth uses up part of a budget, and each pass one of a limited number of passes.

A pass collects the spans that fire and lets their chunks grow in turn. After each growth every
offset is assigned anew, and the spans that fire then join the queue.
-/

namespace Assembler

/-- The offset in its section of a position, given the slots of the section and its size. -/
def offsetAmong (slots : List Slot) (size : UInt64) (location : Location) : UInt64 :=
  match slots[location.index]? with
  | some slot => slot.offset + location.offset
  | none => size + location.offset

/-- Put slots one behind the other, and find the offset behind the last. -/
def placeSlots : UInt64 → List Slot → List Slot × UInt64
  | offset, [] => ([], offset)
  | offset, slot :: rest =>
    let placed := slot.placeAt offset
    let (others, size) := placeSlots placed.next rest
    (placed :: others, size)

/-- What went wrong in a layout, and at which chunk; no chunk is named when the layout as a whole
breaks a promise. -/
structure LayoutProblem where
  index : Option Nat
  error : Error
deriving DecidableEq

/-- The slots that failed when they were placed, with their numbers. -/
def placementProblems (before after : List Slot) : List LayoutProblem :=
  ((before.zip after).zipIdx).filterMap fun ((old, new), index) =>
    if old.error.isNone then new.error.map fun error => { index := some index, error } else none

/-- A chunk grew because of a span. -/
structure Growth where
  index : Nat
  span : Nat
  /-- The distance that made the span fire. -/
  distance : Int64
  before : UInt64
  after : UInt64
deriving DecidableEq

/-- A section on its way to its final layout. -/
structure Relaxation where
  /-- The number of the section. -/
  home : Nat
  slots : List Slot
  spans : List Span
  size : UInt64 := 0
  /-- How many passes were begun. -/
  passes : Nat := 0
  /-- How often a chunk grew. -/
  expansions : Nat := 0
  /-- How many spans were settled for good. -/
  retired : Nat := 0
  problems : List LayoutProblem := []
  growths : List Growth := []
deriving DecidableEq

/-- What comes of letting a slot grow for a span. -/
inductive Outcome where
  /-- The slot no longer depends on the distance. -/
  | settled (slot : Slot)
  /-- The slot still depends on the distance. -/
  | watching (slot : Slot)
  | failed (slot : Slot) (error : Error)
deriving DecidableEq

namespace Outcome

/-- The names of the outcomes, by code. -/
def names : List String := ["no-longer-dependent", "still-dependent", "failed"]

/-- The slot that an outcome leaves. -/
def slot : Outcome → Slot
  | .settled grown | .watching grown | .failed grown _ => grown

end Outcome

/-- The distance that stands in for one that cannot be computed. It lies outside every window and
asks for the longest form. -/
def unknownDistance : Int64 := 9223372036854775807

/-- Let a slot grow for a span, given the distance if it can be computed. -/
def Slot.grow (slot : Slot) (span : Span) (distance : Option Int64) : Outcome :=
  match span.purpose with
  | .copies =>
    match distance with
    | none => .failed slot (.inRepeat .notConstant)
    | some count =>
      if count < 0 then .failed slot (.negativeRepeat count.toInt)
      else if count < span.seen then
        .failed slot (.repeatDecreased span.seen.toInt count.toInt)
      else .watching { slot with copies := count }
  | .leb128 signed =>
    let length := UInt64.ofNat (Leb128.size (distance.getD unknownDistance).toInt signed)
    let grown := { slot with length := if slot.length < length then length else slot.length }
    if distance.isNone then .failed grown (.secondaryExpansion span.purpose.id) else .watching grown
  | .branch nearLength => .settled { slot with near := true, length := nearLength }

/-- The scaled positions that a field adds up, if it has no symbol left. -/
def Field.positions (field : Field) : Option (List (Int64 × Location)) :=
  if field.symbol.isSome then none
  else do
    let terms ← field.expr.terms.mapM fun term =>
      match term.base with
      | .place location => some (term.coefficient, location)
      | .symbol _ => none
    return terms ++ (field.origin.map fun location => (-1, location)).toList

namespace Relaxation

/-- The value of a field that is a distance inside the section. There is none when the field leaves
the section, does not cancel to a distance or exceeds a signed word. -/
def distance (state : Relaxation) (field : Field) : Option Int64 := do
  let positions ← field.positions
  if (positions.all fun position => position.2.sectionId == state.home) &&
      (positions.map Prod.fst).sum == 0 then
    let value := field.expr.constant + (positions.map fun (coefficient, location) =>
      coefficient.toInt * (offsetAmong state.slots state.size location).toNat).foldr (· + ·) 0
    if isWord value then some (Int64.ofInt value) else none
  else none

/-- Assign every offset anew. Padding gets its length here. -/
def assignOffsets (state : Relaxation) : Relaxation :=
  let (slots, size) := placeSlots 0 state.slots
  { state with slots, size, problems := state.problems ++ placementProblems state.slots slots }

/-- Stop watching the spans of a chunk. -/
def dropSpans (state : Relaxation) (index : Nat) : Relaxation :=
  { state with
    spans := state.spans.map fun span =>
      if span.index = index && span.state = .active then { span with state := .failed } else span }

/-- Record why a chunk cannot be laid out. -/
def fail (state : Relaxation) (index : Nat) (error : Error) : Relaxation :=
  dropSpans
    { state with
      slots := state.slots.modify index fun slot => { slot with error := some error }
      problems := state.problems ++ [{ index := some index, error }] }
    index

/-- Record a broken promise of the layout as a whole. -/
def breakOff (state : Relaxation) (error : Error) : Relaxation :=
  { state with problems := state.problems ++ [{ index := none, error }] }

/-- Whether the span at a place of the list is watched and fires. -/
def isPending (state : Relaxation) (span : Span) : Bool :=
  span.state = .active && span.fires ((state.distance span.field).getD unknownDistance)

/-- The places of the spans that fire, without those that wait already. -/
def collect (state : Relaxation) (waiting : List Nat) : List Nat :=
  (state.spans.zipIdx.filter fun (span, place) =>
    !waiting.contains place && state.isPending span).map Prod.snd

/-- What follows a change of one chunk's slot: a chunk that shrank fails, and one that grew moves
all that follows it. The second result says whether the chunk grew. -/
def afterGrowth (state : Relaxation) (span : Span) (distance : Int64) (before after : UInt64) :
    Relaxation × Bool :=
  if after < before then
    let broken := state.breakOff (.shrankBy span.index before after)
    (dropSpans
      { broken with
        slots := broken.slots.modify span.index fun slot => { slot with error := some .shrank } }
      span.index, false)
  else if before < after then
    (assignOffsets
      { state with
        expansions := state.expansions + 1
        growths := state.growths ++
          [{ index := span.index, span := span.purpose.id, distance, before, after }] },
      true)
  else (state, false)

/-- Let the chunk of a span grow, if the span still fires. The second result says whether the
section grew. -/
def process (state : Relaxation) (place : Nat) : Relaxation × Bool :=
  match state.spans[place]? with
  | none => (state, false)
  | some span =>
    match state.slots[span.index]? with
    | none => (state, false)
    | some slot =>
      if slot.error.isSome || !state.isPending span then (state, false)
      else
        let distance := state.distance span.field
        let seen := distance.getD unknownDistance
        let outcome := slot.grow span distance
        let grown := outcome.slot
        let state :=
          { state with
            slots := state.slots.set span.index grown
            spans := state.spans.set place { span with seen } }
        match outcome with
        | .failed _ error => (state.fail span.index error, false)
        | .watching _ => state.afterGrowth span seen slot.total grown.total
        | .settled _ =>
          let state :=
            { state with
              spans := state.spans.set place { span with seen, state := .retired }
              retired := state.retired + 1 }
          state.afterGrowth span seen slot.total grown.total

/-- Work through a queue up to the first growth; what is left of the queue then, or nothing when the
queue ran out. -/
def firstGrowth (state : Relaxation) : List Nat → Relaxation × Option (List Nat)
  | [] => (state, none)
  | place :: rest =>
    match state.process place with
    | (next, true) => (next, some rest)
    | (next, false) => next.firstGrowth rest

/-- Work through a queue, with a budget of growths. The rest of the budget is given back; none is
when it was exceeded. -/
def drain (budget : Nat) (state : Relaxation) (queue : List Nat) : Relaxation × Option Nat :=
  match state.firstGrowth queue with
  | (next, none) => (next, some budget)
  | (next, some rest) =>
    match budget with
    | 0 => (next.breakOff (.budgetSpent next.expansions rest.length), none)
    | budget + 1 => drain budget next (rest ++ next.collect rest)

/-- Run passes until no span fires, at most `remaining` of them. The second result says whether that
was reached. -/
def runPasses (limit : Nat) : Nat → Nat → Relaxation → Relaxation × Bool
  | remaining, budget, state =>
    let begun := { state with passes := state.passes + 1 }
    let queue := begun.collect []
    if queue.isEmpty then (begun, true)
    else
      match remaining with
      | 0 => (begun.breakOff (.passLimit limit queue.length), false)
      | remaining + 1 =>
        match begun.drain budget queue with
        | (next, none) => (next, false)
        | (next, some budget) => runPasses limit remaining budget next

/-- The least limit on passes that is chosen when none is given. -/
def leastPassLimit : Nat := 64

/-- The limit on passes: the one given, if it is positive, and else one chosen by the number of
spans. -/
def passLimit (given : Int) (spans : Nat) : Nat :=
  if 0 < given then given.toNat else max leastPassLimit (2 * spans + 2)

/-- The budget of growths: as many as the passes may try spans, as a signed word. -/
def growthBudget (limit spans : Nat) : Nat :=
  (Int64.ofInt ((limit : Int) * max 1 spans)).toInt.toNat

/-- Bring a section to a layout in which no span fires and every offset is right. -/
def settle (state : Relaxation) (maxPasses : Int) : Relaxation :=
  let limit := passLimit maxPasses state.spans.length
  match runPasses limit limit (growthBudget limit state.spans.length) state.assignOffsets with
  | (settled, true) => settled.assignOffsets
  | (stopped, false) => stopped

end Relaxation

end Assembler
