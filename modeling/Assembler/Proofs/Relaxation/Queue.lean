import Assembler.Proofs.Relaxation.Coherence

/-!
# The queue of a pass

`Covered state queue` says that every span that fires waits in the queue. Collecting establishes it,
a span that is worked on without a growth leaves the queue for good, and so a queue that ran out
leaves no span that fires (`collect_nil_of_drain`).
-/

namespace Assembler.Relaxation

variable {state next : Relaxation} {place : Nat} {span : Span}

/-- The places that are collected are those of the spans that fire and do not wait already. -/
theorem mem_collect {waiting : List Nat} :
    place ∈ state.collect waiting ↔
      ∃ span, state.spans[place]? = some span ∧ place ∉ waiting ∧ state.isPending span = true := by
  simp only [collect, List.mem_map, List.mem_filter, Prod.exists, List.mem_zipIdx_iff_getElem?,
    Bool.and_eq_true, Bool.not_eq_true', List.contains_eq_mem, decide_eq_false_iff_not]
  constructor
  · rintro ⟨span, index, ⟨spanAt, absent, pending⟩, rfl⟩
    exact ⟨span, spanAt, absent, pending⟩
  · rintro ⟨span, spanAt, absent, pending⟩
    exact ⟨span, place, ⟨spanAt, absent, pending⟩, rfl⟩

/-- Nothing is collected exactly when no span fires. -/
theorem collect_nil_iff :
    state.collect [] = [] ↔ ∀ span ∈ state.spans, state.isPending span = false := by
  rw [List.eq_nil_iff_forall_not_mem]
  constructor
  · intro empty span member
    obtain ⟨place, spanAt⟩ := List.mem_iff_getElem?.mp member
    rw [← Bool.not_eq_true]
    intro pending
    exact empty place (mem_collect.mpr ⟨span, spanAt, List.not_mem_nil, pending⟩)
  · intro quiet place member
    obtain ⟨span, spanAt, _, pending⟩ := mem_collect.mp member
    simp [quiet span (List.mem_of_getElem? spanAt)] at pending

/-- Every span that fires waits in the queue. -/
def Covered (state : Relaxation) (queue : List Nat) : Prop :=
  ∀ (place : Nat) (span : Span), state.spans[place]? = some span → state.isPending span = true →
    place ∈ queue

/-- Collecting covers what the rest of the queue does not. -/
theorem covered_collect (state : Relaxation) (rest : List Nat) :
    state.Covered (rest ++ state.collect rest) := by
  intro place span spanAt pending
  by_cases waits : place ∈ rest
  · exact List.mem_append_left _ waits
  · exact List.mem_append_right _ (mem_collect.mpr ⟨span, spanAt, waits, pending⟩)

/-- If no span is left out, nothing waits. -/
theorem Covered.collect_nil (covered : state.Covered []) :
    state.collect [] = [] := by
  rw [List.eq_nil_iff_forall_not_mem]
  intro place member
  obtain ⟨span, spanAt, _, pending⟩ := mem_collect.mp member
  exact List.not_mem_nil (covered place span spanAt pending)

/-- Work on one span that moves nothing: offsets stay, no other span becomes active, and the span
itself does not fire any more. -/
structure Quieted (state : Relaxation) (place : Nat) (next : Relaxation) : Prop where
  offsets : SameOffsets state next
  others : ∀ {index : Nat} {span : Span}, next.spans[index]? = some span → span.state = .active →
    index ≠ place → state.spans[index]? = some span
  settled : ∀ {span : Span}, next.spans[place]? = some span → next.isPending span = false

/-- What is left of the queue covers what still fires. -/
theorem Quieted.covered {rest : List Nat} (quieted : state.Quieted place next)
    (covered : state.Covered (place :: rest)) :
    next.Covered rest := by
  intro index span spanAt pending
  have active := active_of_isPending pending
  by_cases here : index = place
  · subst here
    simp [quieted.settled spanAt] at pending
  · have before := quieted.others spanAt active here
    have fired : state.isPending span = true := by
      simpa [isPending, quieted.offsets.distance_eq] using pending
    exact (List.mem_cons.mp (covered index span before fired)).resolve_left here

/-- A growth that moves nothing yet changes no offset. -/
theorem sameOffsets_advance {slot : Slot} (firing : state.Firing place span slot) :
    SameOffsets state (state.advance place span (slot.grow span (state.distance span.field))) :=
  sameOffsets_of_map rfl (map_set_of_eq firing.slotAt (by simp)) rfl

/-- Giving up a chunk moves nothing. -/
theorem sameOffsets_dropSpans {first second : Relaxation} (same : SameOffsets first second)
    (index : Nat) (error : Error) (problems : List LayoutProblem) :
    SameOffsets first
      (dropSpans
        { second with
          slots := second.slots.modify index fun slot => { slot with error := some error }
          problems } index) := by
  refine ⟨same.1, fun location => ?_⟩
  rw [← same.2 location]
  simp only [offsetAmong, dropSpans, List.getElem?_modify]
  cases second.slots[location.index]? with
  | none => rfl
  | some slot =>
    simp only [Option.map_eq_map, Option.map_some]
    split <;> rfl

/-- An active span that is left after a chunk's spans are dropped was there before, and is not of
that chunk. -/
theorem active_of_dropSpans {index : Nat}
    (spanAt : (state.dropSpans index).spans[place]? = some span) (active : span.state = .active) :
    state.spans[place]? = some span ∧ span.index ≠ index := by
  simp only [dropSpans, List.getElem?_map, Option.map_eq_some_iff] at spanAt
  obtain ⟨old, oldAt, same⟩ := spanAt
  split at same
  case isTrue dropped =>
    rw [← same] at active
    cases active
  case isFalse kept =>
    subst same
    refine ⟨oldAt, fun here => ?_⟩
    simp [here, active] at kept

/-- Only active spans wait. -/
theorem isPending_of_inactive (inactive : span.state ≠ .active) :
    state.isPending span = false := by
  simp [isPending, inactive]

/-- After the growth of its chunk, a span is settled or has seen its distance. -/
theorem isPending_advance (same : SameOffsets state next) (span : Span) (slot : Slot) :
    next.isPending
      { span with
        seen := state.seenBy span
        state := (slot.grow span (state.distance span.field)).spanState } = false := by
  cases purpose : span.purpose with
  | branch nearLength =>
    apply isPending_of_inactive
    simp [Slot.grow, purpose, Outcome.spanState]
  | copies | leb128 => simp [isPending, Span.fires, Purpose.policy, same.distance_eq, seenBy]

/-- The growth of a chunk quiets the span that asked for it. -/
theorem quieted_advance {slot : Slot} (firing : state.Firing place span slot) :
    state.Quieted place
      (state.advance place span (slot.grow span (state.distance span.field))) where
  offsets := sameOffsets_advance firing
  others := by
    intro index other otherAt _ apart
    rwa [Relaxation.advance, List.getElem?_set_ne (Ne.symm apart)] at otherAt
  settled := by
    intro other otherAt
    have inRange := (List.getElem?_eq_some_iff.mp firing.spanAt).1
    simp only [Relaxation.advance, List.getElem?_set_self inRange, Option.some.injEq] at otherAt
    subst otherAt
    exact isPending_advance (sameOffsets_advance firing) span slot

/-- Giving up a chunk quiets its spans for good. -/
theorem Quieted.dropSpans (quieted : state.Quieted place next) (index : Nat) (error : Error)
    (problems : List LayoutProblem) :
    state.Quieted place
      (dropSpans
        { next with
          slots := next.slots.modify index fun slot => { slot with error := some error }
          problems } index) where
  offsets := sameOffsets_dropSpans quieted.offsets index error problems
  others := by
    intro other span spanAt active apart
    exact quieted.others (active_of_dropSpans spanAt active).1 active apart
  settled := by
    intro span spanAt
    by_cases active : span.state = .active
    · have before := quieted.settled (active_of_dropSpans spanAt active).1
      have same := sameOffsets_dropSpans quieted.offsets index error problems
      simpa [isPending, same.distance_eq, quieted.offsets.distance_eq] using before
    · exact isPending_of_inactive active

/-- Work on a span that does not let the section grow quiets the span. -/
theorem Effect.quieted (coherent : state.Coherent)
    (effect : state.Effect place next false) : state.Quieted place next := by
  cases effect with
  | idle quiet =>
    refine ⟨⟨rfl, fun _ => rfl⟩, fun spanAt _ _ => spanAt, fun {span} spanAt => ?_⟩
    rw [← Bool.not_eq_true]
    intro pending
    obtain ⟨slot, slotAt, _, sound, _⟩ := coherent.watched span (List.mem_of_getElem? spanAt)
    exact quiet span slot ⟨spanAt, slotAt, sound (active_of_isPending pending), pending⟩
  | failed firing grown refused =>
    subst grown
    exact (quieted_advance firing).dropSpans _ _ _
  | shrank firing grown granted less =>
    subst grown
    exact (quieted_advance firing).dropSpans _ _ _
  | kept firing grown granted same =>
    subst grown
    exact quieted_advance firing

/-- A covered queue that runs out without a growth leaves nothing that fires. -/
theorem covered_firstGrowth {queue : List Nat} (coherent : state.Coherent)
    (covered : state.Covered queue)
    (quiet : state.firstGrowth queue = (next, none)) : next.Covered [] := by
  fun_induction firstGrowth state queue with
  | case1 state =>
    cases quiet
    exact covered
  | case2 state place rest after processed => cases quiet
  | case3 state place rest after processed ih =>
    have effect := effect_of_process processed
    exact ih (coherent_preserved.work coherent effect)
      ((effect.quieted coherent).covered covered) quiet

/-- A covered queue that is drained leaves nothing that fires: after each growth, all that fires
joins the queue. -/
theorem covered_drain {budget left : Nat} {queue : List Nat} (coherent : state.Coherent)
    (covered : state.Covered queue)
    (drained : drain budget state queue = (next, some left)) : next.Covered [] := by
  fun_induction drain budget state queue with
  | case1 budget state queue after quiet =>
    cases drained
    exact covered_firstGrowth coherent covered quiet
  | case2 state queue after rest growth => cases drained
  | case3 state queue after rest growth budget ih =>
    -- Whatever was covered before the growth, all that fires now has just been collected.
    have reached := reaches_firstGrowth state queue
    rw [growth] at reached
    exact ih (coherent_preserved.of_reaches reached coherent) (covered_collect after rest) drained

/-- A pass that drains its queue leaves nothing for the next one. -/
theorem collect_nil_of_drain {budget left : Nat} (coherent : state.Coherent)
    (drained : drain budget state (state.collect []) = (next, some left)) :
    next.collect [] = [] :=
  (covered_drain coherent (by simpa using covered_collect state []) drained).collect_nil

end Assembler.Relaxation
