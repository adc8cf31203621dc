import Assembler.Proofs.Relaxation.Account
import Assembler.Proofs.Relaxation.Advance
import Assembler.Proofs.Relaxation.Weight

/-!
# When a count is judged

A count that is a distance is judged in the turn in which its span is worked on, at the offsets of
that turn. `failedWith_turns_iff` says that a chunk fails because of a negative count exactly if a
turn has judged the count so: no failure is taken back later. Chunks without rules only get longer
from then on (`Growing.extents_mono`), and at every turn they stand by extents that are at most
those of any later turn (`Growing.exists_standing_le`).
-/

namespace Assembler

variable {slot : Slot} {span : Span} {value : Int} {first : Loop}

/-- A slot is refused because of a negative count exactly if its span watches the count and found
it to be negative. -/
theorem Slot.grow_negativeRepeat_iff {distance : Option Int64} :
    (slot.grow span distance).error = some (.negativeRepeat value) ↔
      span.purpose = .copies ∧ distance.map Int64.toInt = some value ∧ value < 0 := by
  cases purpose : span.purpose with
  | branch nearLength => simp [Slot.grow, purpose, Outcome.error]
  | leb128 signed => cases distance <;> simp [Slot.grow, purpose, Outcome.error]
  | copies =>
    cases distance with
    | none => simp [Slot.grow, purpose, Outcome.error]
    | some count =>
      have sign : count < 0 ↔ count.toInt < 0 := Int64.lt_iff_toInt_lt
      by_cases negative : count < 0
      · have below := sign.mp negative
        simp only [Slot.grow, purpose, negative, if_true, Outcome.error, Option.some.injEq,
          Error.negativeRepeat.injEq, Option.map_some, true_and]
        exact ⟨fun same => ⟨same, same ▸ below⟩, And.left⟩
      · have above := mt sign.mpr negative
        by_cases less : count < span.seen <;>
          simp only [Slot.grow, purpose, negative, less, if_true, if_false, Outcome.error,
            Option.map_some, Option.some.injEq, true_and, reduceCtorEq, false_iff, not_and] <;>
          exact fun same => same ▸ above

namespace Relaxation

variable {state next : Relaxation} {index place : Nat} {error : Error}

/-- The chunk at an index has failed with an error. -/
def FailedWith (state : Relaxation) (index : Nat) (error : Error) : Prop :=
  ∃ slot, state.slots[index]? = some slot ∧ slot.error = some error

namespace FailedWith

/-- A span of a chunk that has failed does not fire. -/
theorem ne_of_firing (failed : state.FailedWith index error)
    (firing : state.Firing place span slot) : span.index ≠ index := by
  rintro rfl
  obtain ⟨found, foundAt, known⟩ := failed
  rw [firing.slotAt, Option.some.injEq] at foundAt
  rw [← foundAt, firing.sound] at known
  cases known

/-- A growth on its own fails nothing, and takes back no failure. -/
theorem advance_iff (firing : state.Firing place span slot) :
    (state.advance place span (slot.grow span (state.distance span.field))).FailedWith index error ↔
      state.FailedWith index error := by
  by_cases here : span.index = index
  · refine iff_of_false ?_ fun failed => failed.ne_of_firing firing here
    subst here
    rintro ⟨later, laterAt, known⟩
    have inRange := (List.getElem?_eq_some_iff.mp firing.slotAt).1
    simp only [Relaxation.advance, List.getElem?_set_self inRange, Option.some.injEq] at laterAt
    rw [← laterAt, Slot.grow_error, firing.sound] at known
    cases known
  · simp only [FailedWith, Relaxation.advance, List.getElem?_set_ne here]

/-- Giving up the chunk that fires fails that chunk only. -/
theorem giveUp_iff (firing : state.Firing place span slot) {reason : Error}
    {problems : List LayoutProblem} :
    let advanced := state.advance place span (slot.grow span (state.distance span.field))
    (Relaxation.dropSpans
      { advanced with
        slots := advanced.slots.modify span.index fun slot => { slot with error := some reason }
        problems } span.index).FailedWith index error ↔
      state.FailedWith index error ∨ (span.index = index ∧ reason = error) := by
  intro advanced
  simp only [← advance_iff firing]
  simp only [FailedWith, Relaxation.dropSpans, List.getElem?_modify]
  by_cases here : span.index = index
  · subst here
    have inRange := (List.getElem?_eq_some_iff.mp firing.slotAt).1
    have sound : (slot.grow span (state.distance span.field)).slot.error = none := by
      rw [Slot.grow_error, firing.sound]
    simp [advanced, Relaxation.advance, List.getElem?_set_self inRange, sound]
  · simp [advanced, here]

/-- Assigning offsets fails padding only, and takes back no failure. -/
theorem assignOffsets_iff (other : error.causes ≠ [.orgOverlap]) :
    state.assignOffsets.FailedWith index error ↔ state.FailedWith index error := by
  obtain ⟨offset, placed⟩ := placeSlots_getElem? 0 state.slots index
  have moved : state.assignOffsets.slots[index]? = (state.slots[index]?).map (·.placeAt offset) :=
    placed
  constructor
  · rintro ⟨later, laterAt, known⟩
    rw [moved] at laterAt
    obtain ⟨slot, slotAt, rfl⟩ := Option.map_eq_some_iff.mp laterAt
    by_cases sound : slot.error = none
    · exact absurd (placeAt_causes sound known) other
    · rw [Slot.placeAt_error sound] at known
      exact ⟨slot, slotAt, known⟩
  · rintro ⟨slot, slotAt, known⟩
    rw [slotAt] at moved
    refine ⟨_, moved, ?_⟩
    rw [Slot.placeAt_error (by simp [known]), known]

end FailedWith

/-- The span at a place fires because of a count that is negative at the offsets of a state. -/
structure Judged (state : Relaxation) (place : Nat) (span : Span) (value : Int) : Prop where
  firing : ∃ slot, state.Firing place span slot
  purpose : span.purpose = .copies
  measured : (state.distance span.field).map Int64.toInt = some value
  negative : value < 0

/-- The value that a count is judged by is exact. -/
theorem Judged.exact_eq (judged : state.Judged place span value) :
    state.exactValue span.field = value := by
  obtain ⟨count, measured, same⟩ := Option.map_eq_some_iff.mp judged.measured
  exact (distance_eq_some_iff.mp measured).2.trans same

/-- Work fails a chunk because of a negative count exactly if it judges that count. -/
theorem Effect.failedWith_iff {grew : Bool} (effect : state.Effect place next grew) :
    next.FailedWith index (.negativeRepeat value) ↔
      state.FailedWith index (.negativeRepeat value) ∨
        ∃ span, state.Judged place span value ∧ span.index = index := by
  -- A span that is judged is the one that fires, and no other outcome of it is possible.
  have refused : ∀ {span : Span} {slot : Slot}, state.Firing place span slot →
      ((∃ span, state.Judged place span value ∧ span.index = index) ↔
        span.index = index ∧ (slot.grow span (state.distance span.field)).error =
          some (.negativeRepeat value)) := by
    intro span slot firing
    rw [Slot.grow_negativeRepeat_iff]
    constructor
    · rintro ⟨other, ⟨⟨_, again⟩, purpose, measured, negative⟩, here⟩
      obtain rfl : span = other := Option.some.inj (firing.spanAt.symm.trans again.spanAt)
      exact ⟨here, purpose, measured, negative⟩
    · rintro ⟨here, purpose, measured, negative⟩
      exact ⟨span, ⟨⟨slot, firing⟩, purpose, measured, negative⟩, here⟩
  cases effect with
  | idle quiet =>
    refine ⟨.inl, fun failed => failed.elim id ?_⟩
    rintro ⟨span, judged, _⟩
    obtain ⟨slot, firing⟩ := judged.firing
    exact absurd firing (quiet span slot)
  | failed firing grown isRefused =>
    subst grown
    rw [refused firing, isRefused, Option.some.injEq]
    exact FailedWith.giveUp_iff firing
  | shrank firing grown granted less =>
    subst grown
    rw [refused firing, granted]
    exact (FailedWith.giveUp_iff firing).trans (or_congr_right (by simp))
  | kept firing grown granted same =>
    subst grown
    rw [refused firing, granted, FailedWith.advance_iff firing]
    simp
  | grew firing grown granted more =>
    subst grown
    rw [refused firing, granted]
    refine (FailedWith.assignOffsets_iff (by simp [Error.causes])).trans ?_
    exact (FailedWith.advance_iff firing).trans (by simp)

variable {limit : Nat} {budget : Int}

/-- The span that is next in the queue fires because of a negative count of a chunk. -/
def Loop.Judges (loop : Loop) (index : Nat) (value : Int) : Prop :=
  ∃ place rest span, loop.phase = .queue (place :: rest) ∧ loop.state.Judged place span value ∧
    span.index = index

/-- A turn fails a chunk because of a negative count exactly if it judges that count. -/
theorem Loop.failedWith_turn_iff {loop : Loop} :
    (loop.turn limit budget).state.FailedWith index (.negativeRepeat value) ↔
      loop.state.FailedWith index (.negativeRepeat value) ∨ loop.Judges index value := by
  have effect : Loop.TurnEffect loop (loop.turn limit budget).state := Loop.turn_effect loop
  generalize (loop.turn limit budget).state = next at effect ⊢
  have passed : loop.phase = .pass → ¬ loop.Judges index value := by
    rintro passing ⟨place, rest, span, queued, _⟩
    rw [passing] at queued
    cases queued
  have queueing : ∀ {place : Nat} {rest : List Nat}, loop.phase = .queue (place :: rest) →
      (loop.Judges index value ↔
        ∃ span, loop.state.Judged place span value ∧ span.index = index) := by
    intro place rest queued
    simp [Loop.Judges, queued]
  cases effect with
  | still idle =>
    refine (or_iff_left ?_).symm
    rintro ⟨place, rest, span, queued, _⟩
    exact idle place rest queued
  | begun passing => exact (or_iff_left (passed passing)).symm
  | exceeded passing passes pending => exact (or_iff_left (passed passing)).symm
  | worked queued effect =>
    rw [queueing queued]
    exact effect.failedWith_iff
  | spent queued effect growths pending =>
    rw [queueing queued]
    exact effect.failedWith_iff

/-- A chunk has failed because of a negative count after some turns exactly if it was judged in one
of them, or had failed before. -/
theorem failedWith_turns_iff {turns : Nat} :
    ((Loop.turn limit budget)^[turns] first).state.FailedWith index (.negativeRepeat value) ↔
      first.state.FailedWith index (.negativeRepeat value) ∨
        ∃ turn < turns, ((Loop.turn limit budget)^[turn] first).Judges index value := by
  induction turns with
  | zero => simp
  | succ turns ih =>
    rw [Function.iterate_succ_apply', Loop.failedWith_turn_iff, ih, or_assoc]
    simp only [Nat.lt_succ_iff_lt_or_eq, or_and_right, exists_or, exists_eq_left]

/-- Every slot is plain. -/
def IsPlain (state : Relaxation) : Prop := ∀ slot ∈ state.slots, slot.Plain

/-- A growth leaves slots plain. -/
theorem IsPlain.advance (plain : state.IsPlain) (firing : state.Firing place span slot) :
    (state.advance place span (slot.grow span (state.distance span.field))).IsPlain := by
  intro other member
  rcases List.mem_or_eq_of_mem_set member with old | rfl
  · exact plain other old
  · exact (plain slot (List.mem_of_getElem? firing.slotAt)).grow span _

/-- Giving up a chunk leaves slots plain. -/
theorem IsPlain.dropSpans (plain : state.IsPlain) (index : Nat) (error : Error)
    (problems : List LayoutProblem) :
    (Relaxation.dropSpans
      { state with
        slots := state.slots.modify index fun slot => { slot with error := some error }
        problems } index).IsPlain := by
  intro slot member
  rcases mem_modify member with old | ⟨old, oldMember, rfl⟩
  · exact plain slot old
  · exact ⟨(plain old oldMember).ruleless, (plain old oldMember).counted⟩

theorem IsPlain.assignOffsets (plain : state.IsPlain) : state.assignOffsets.IsPlain :=
  plain_placeSlots plain 0

/-- Slots stay plain, whatever a relaxation does. -/
theorem isPlain_preserved : Preserved IsPlain where
  work := by
    intro state next place grew plain effect
    cases effect with
    | idle => exact plain
    | failed firing grown refused =>
      subst grown
      exact (plain.advance firing).dropSpans _ _ _
    | shrank firing grown granted less =>
      subst grown
      exact (plain.advance firing).dropSpans _ _ _
    | kept firing grown granted same =>
      subst grown
      exact plain.advance firing
    | grew firing grown granted more =>
      subst grown
      have advanced := plain.advance firing
      exact IsPlain.assignOffsets advanced
  pass := id
  stop := fun _ plain => plain
  assign := IsPlain.assignOffsets

/-- What holds along the relaxation of slots without rules. -/
structure Growing (start state : Relaxation) : Prop where
  frame : Frame start state
  coherent : state.Coherent
  plain : state.IsPlain

/-- All this holds of every state that is reached. -/
theorem Growing.of_reaches {start last : Relaxation} (growing : Growing start state)
    (reached : state.Reaches last) : Growing start last where
  frame := (frame_preserved start).of_reaches reached growing.frame
  coherent := coherent_preserved.of_reaches reached growing.coherent
  plain := isPlain_preserved.of_reaches reached growing.plain

section

variable {start : Relaxation} (growable : start.Growable) (distinct : start.spanKeys.Nodup)
include growable distinct

/-- Working on a span takes no bytes from any chunk. -/
theorem Growing.extents_le (growing : Growing start state) {grew : Bool}
    (effect : state.Effect place next grew) (index : Nat) :
    extentsOf state.slots index ≤ extentsOf next.slots index := by
  have advanced : ∀ {span : Span} {slot : Slot}, state.Firing place span slot →
      extentsOf state.slots index ≤ extentsOf (state.advance place span
        (slot.grow span (state.distance span.field))).slots index := by
    intro span slot firing
    have inRange := (List.getElem?_eq_some_iff.mp firing.slotAt).1
    rw [Relaxation.advance, extentsOf_set inRange]
    by_cases here : index = span.index
    · subst here
      rw [Function.update_self, extentsOf_of_getElem? firing.slotAt]
      exact firing.extent_le growable distinct growing.frame growing.coherent _
    · rw [Function.update_of_ne here]
  have dropped : ∀ (slots : List Slot) (given : Nat) (error : Error),
      extentsOf (slots.modify given fun slot => { slot with error := some error }) =
        extentsOf slots :=
    fun slots given error => extentsOf_congr (map_fail _ (fun _ _ => rfl) slots given error)
  cases effect with
  | idle => exact Nat.le_refl _
  | failed firing grown refused =>
    subst grown
    exact (advanced firing).trans_eq (congrFun (dropped _ _ _) index).symm
  | shrank firing grown granted less =>
    subst grown
    exact (advanced firing).trans_eq (congrFun (dropped _ _ _) index).symm
  | kept firing grown granted same =>
    subst grown
    exact advanced firing
  | grew firing grown granted more =>
    subst grown
    have placed := extentsOf_congr (map_extent_placeSlots (growing.plain.advance firing) 0)
    exact (advanced firing).trans_eq (congrFun placed index).symm

/-- A turn of the loops takes no bytes from any chunk. -/
theorem Growing.extents_le_turn {loop : Loop} (growing : Growing start loop.state) (index : Nat) :
    extentsOf loop.state.slots index ≤ extentsOf (loop.turn limit budget).state.slots index := by
  have effect : Loop.TurnEffect loop (loop.turn limit budget).state := Loop.turn_effect loop
  generalize (loop.turn limit budget).state = next at effect ⊢
  cases effect with
  | still | begun | exceeded => exact Nat.le_refl _
  | worked queued effect => exact growing.extents_le growable distinct effect index
  | spent queued effect growths pending => exact growing.extents_le growable distinct effect index

/-- The turns of the loops take no bytes from any chunk. -/
theorem Growing.extents_mono (growing : Growing start first.state) {early late : Nat}
    (le : early ≤ late) (index : Nat) :
    extentsOf ((Loop.turn limit budget)^[early] first).state.slots index ≤
      extentsOf ((Loop.turn limit budget)^[late] first).state.slots index := by
  refine monotone_nat_of_le_succ (f := fun turn =>
    extentsOf ((Loop.turn limit budget)^[turn] first).state.slots index) (fun turn => ?_) le
  rw [Function.iterate_succ_apply']
  exact (growing.of_reaches (Loop.reaches_turns first turn)).extents_le_turn growable distinct index

/-- After working on a span, chunks stand by extents that are at most their own: by those from
before, or, if a chunk grew, by their own. -/
theorem Growing.exists_standing (growing : Growing start state) {grew : Bool}
    (effect : state.Effect place next grew) (bounded : next.exactSize < 2 ^ 64)
    (before : ∃ extent, state.Standing extent ∧
      ∀ index, extent index ≤ extentsOf state.slots index) :
    ∃ extent, next.Standing extent ∧ ∀ index, extent index ≤ extentsOf next.slots index := by
  cases grew with
  | false =>
    obtain ⟨extent, standing, within⟩ := before
    exact ⟨extent, standing.congr (effect.quieted growing.coherent).offsets, fun index =>
      (within index).trans (growing.extents_le growable distinct effect index)⟩
  | true =>
    have plain := isPlain_preserved.work growing.plain effect
    exact ⟨extentsOf next.slots, effect.contiguous.standing plain bounded, fun _ => Nat.le_refl _⟩

variable (growing : Growing start first.state)
  (contiguous : Contiguous 0 first.state.slots first.state.size)
include growing contiguous

/-- At every turn of the loops, chunks stand by extents that are at most their own, as long as words
can count the bytes of the section. -/
theorem Growing.exists_standing_turn {turn : Nat}
    (bounded : ((Loop.turn limit budget)^[turn] first).state.exactSize < 2 ^ 64) :
    ∃ extent, ((Loop.turn limit budget)^[turn] first).state.Standing extent ∧
      ∀ index, extent index ≤
        extentsOf ((Loop.turn limit budget)^[turn] first).state.slots index := by
  induction turn with
  | zero =>
    exact ⟨_, contiguous.standing growing.plain bounded, fun _ => Nat.le_refl _⟩
  | succ turn ih =>
    have earlier := ih (Nat.lt_of_le_of_lt (sum_extent_mono
      (growing.extents_mono growable distinct (Nat.le_succ turn))) bounded)
    have now : Growing start ((Loop.turn limit budget)^[turn] first).state :=
      growing.of_reaches (Loop.reaches_turns first turn)
    rw [Function.iterate_succ_apply'] at bounded ⊢
    generalize (Loop.turn limit budget)^[turn] first = loop at earlier now bounded ⊢
    have effect : Loop.TurnEffect loop (loop.turn limit budget).state := Loop.turn_effect loop
    generalize (loop.turn limit budget).state = next at effect bounded ⊢
    cases effect with
    | still | begun | exceeded => exact earlier
    | worked queued effect => exact now.exists_standing growable distinct effect bounded earlier
    | spent queued effect growths pending =>
      have worked := now.exists_standing growable distinct effect bounded earlier
      exact worked

/-- At every turn of the loops, chunks stand by extents that are at most those of any later turn. -/
theorem Growing.exists_standing_le {early late : Nat} (le : early ≤ late)
    (bounded : ((Loop.turn limit budget)^[late] first).state.exactSize < 2 ^ 64) :
    ∃ extent, ((Loop.turn limit budget)^[early] first).state.Standing extent ∧
      ∀ index, extent index ≤
        extentsOf ((Loop.turn limit budget)^[late] first).state.slots index := by
  have grown : ∀ index, extentsOf ((Loop.turn limit budget)^[early] first).state.slots index ≤
      extentsOf ((Loop.turn limit budget)^[late] first).state.slots index :=
    growing.extents_mono growable distinct le
  obtain ⟨extent, standing, within⟩ := growing.exists_standing_turn growable distinct contiguous
    (Nat.lt_of_le_of_lt (sum_extent_mono grown) bounded)
  exact ⟨extent, standing, fun index => (within index).trans (grown index)⟩

end

end Relaxation

end Assembler
