import Assembler.Proofs.Relaxation.Coherence

/-!
# What a relaxation leaves alone

`Frame start state` lists what stays as it was in `start`: the section, what the spans watch and in
which window, the rules of padding, and every part of a slot that no span of its chunk watches.
Problems are only ever added. `frame_preserved` carries it along everything a relaxation does.
-/

namespace Assembler

variable {span : Span} {start state : Relaxation}

/-- A span as it was registered. -/
def Span.registered (span : Span) : Span := { span with seen := 0, state := .active }

/-- Spans that were registered alike differ in their state and in what they have seen only. -/
theorem Span.agree_of_registered {first second : Span}
    (same : first.registered = second.registered) :
    first.index = second.index ∧ first.purpose = second.purpose ∧ first.field = second.field ∧
      first.low = second.low ∧ first.high = second.high := by
  simpa [Span.registered] using same

/-- What becomes of a slot whose chunk has spans of certain purposes. -/
structure Slot.Evolves (watching : Purpose → Prop) (old new : Slot) : Prop where
  setter : new.setter = old.setter
  copies : ¬ watching .copies → new.copies = old.copies
  near : (∀ length, ¬ watching (.branch length)) → new.near = old.near
  length : (∀ signed, ¬ watching (.leb128 signed)) →
    ((∀ length, ¬ watching (.branch length)) ∨ new.near = false) → old.setter = none →
    new.length = old.length

theorem Slot.Evolves.refl (watching : Purpose → Prop) (slot : Slot) :
    slot.Evolves watching slot where
  setter := rfl
  copies := fun _ => rfl
  near := fun _ => rfl
  length := fun _ _ _ => rfl

/-- The error and, for slots without a rule, the offset are not among the parts that are kept. -/
theorem Slot.Evolves.congr {watching : Purpose → Prop} {old new other : Slot}
    (evolves : old.Evolves watching new) (setter : other.setter = new.setter)
    (copies : other.copies = new.copies) (near : other.near = new.near)
    (length : new.setter = none → other.length = new.length) : old.Evolves watching other where
  setter := setter.trans evolves.setter
  copies := fun unwatched => copies.trans (evolves.copies unwatched)
  near := fun unwatched => near.trans (evolves.near unwatched)
  length := fun unwatched short ruleless =>
    (length (evolves.setter.trans ruleless)).trans
      (evolves.length unwatched (short.imp id near.symm.trans) ruleless)

/-- A growth for a span changes what the span watches only. -/
theorem Slot.Evolves.grown {watching : Purpose → Prop} {old new : Slot}
    (evolves : old.Evolves watching new) (watched : watching span.purpose)
    (distance : Option Int64) : old.Evolves watching (new.grow span distance).slot := by
  cases purpose : span.purpose with
  | copies =>
    have form : (new.grow span distance).slot.length = new.length ∧
        (new.grow span distance).slot.near = new.near :=
      Slot.grow_form (by rw [purpose, Purpose.id])
    exact
      { setter := by rw [grow_setter, evolves.setter]
        copies := fun unwatched => absurd (purpose ▸ watched) unwatched
        near := fun unwatched => form.2.trans (evolves.near unwatched)
        length := fun unwatched short ruleless =>
          form.1.trans (evolves.length unwatched (short.imp id form.2.symm.trans) ruleless) }
  | leb128 signed =>
    have form : span.purpose.id = 1 := by rw [purpose, Purpose.id]
    refine
      { setter := by rw [grow_setter, evolves.setter]
        copies := fun unwatched => (grow_copies form).trans (evolves.copies unwatched)
        near := fun unwatched => ?_
        length := fun unwatched => absurd (purpose ▸ watched) (unwatched signed) }
    rw [← evolves.near unwatched]
    unfold Slot.grow
    rw [purpose]
    dsimp only
    split <;> rfl
  | branch nearLength =>
    have form : span.purpose.id = 1 := by rw [purpose, Purpose.id]
    have known : (new.grow span distance).slot.near = true := by
      unfold Slot.grow
      rw [purpose]
      rfl
    exact
      { setter := by rw [grow_setter, evolves.setter]
        copies := fun unwatched => (grow_copies form).trans (evolves.copies unwatched)
        near := fun unwatched => absurd (purpose ▸ watched) (unwatched nearLength)
        length := fun _ short => by
          rcases short with unwatched | short
          · exact absurd (purpose ▸ watched) (unwatched nearLength)
          · rw [known] at short
            cases short }

namespace Relaxation

/-- Whether a chunk has a span of a purpose. -/
def Watches (state : Relaxation) (index : Nat) (purpose : Purpose) : Prop :=
  ∃ span ∈ state.spans, span.index = index ∧ span.purpose = purpose

/-- What stays as it was at the start of a relaxation. -/
structure Frame (start state : Relaxation) : Prop where
  home : state.home = start.home
  spans : state.spans.map Span.registered = start.spans.map Span.registered
  length : state.slots.length = start.slots.length
  slots : ∀ {index : Nat} {old new : Slot}, start.slots[index]? = some old →
    state.slots[index]? = some new → old.Evolves (start.Watches index) new
  problems : start.problems <+: state.problems

theorem Frame.refl (start : Relaxation) : Frame start start where
  home := rfl
  spans := rfl
  length := rfl
  slots := by
    intro index old new oldAt newAt
    rw [oldAt, Option.some.injEq] at newAt
    exact newAt ▸ Slot.Evolves.refl _ old
  problems := List.prefix_refl _

section

variable (frame : Frame start state)
include frame

/-- A span of a later state was registered as one of the start. -/
theorem Frame.original (member : span ∈ state.spans) :
    ∃ first ∈ start.spans, first.registered = span.registered := by
  have registered : span.registered ∈ start.spans.map Span.registered :=
    frame.spans ▸ List.mem_map_of_mem member
  exact List.mem_map.mp registered

/-- What a span of a later state watches was watched from the start. -/
theorem Frame.watches (member : span ∈ state.spans) : start.Watches span.index span.purpose := by
  obtain ⟨original, originalMember, same⟩ := frame.original member
  obtain ⟨sameIndex, samePurpose, _⟩ := Span.agree_of_registered same
  exact ⟨original, originalMember, sameIndex, samePurpose⟩

/-- The frame is kept by a change of one slot that its spans explain. -/
theorem Frame.update {next : Relaxation} (home : next.home = state.home)
    (spans : next.spans.map Span.registered = state.spans.map Span.registered)
    (length : next.slots.length = state.slots.length)
    (slots : ∀ {index : Nat} {old now new : Slot}, state.slots[index]? = some now →
      next.slots[index]? = some new → old.Evolves (start.Watches index) now →
      old.Evolves (start.Watches index) new) (problems : state.problems <+: next.problems) :
    Frame start next where
  home := home.trans frame.home
  spans := spans.trans frame.spans
  length := length.trans frame.length
  slots := by
    intro index old new oldAt newAt
    have inRange : index < state.slots.length := by
      rw [← length]
      exact (List.getElem?_eq_some_iff.mp newAt).1
    have nowAt : state.slots[index]? = some state.slots[index] :=
      List.getElem?_eq_getElem inRange
    exact slots nowAt newAt (frame.slots oldAt nowAt)
  problems := frame.problems.trans problems

/-- A growth for a span changes nothing that the frame keeps. -/
theorem Frame.advance {place : Nat} {slot : Slot} (firing : state.Firing place span slot) :
    Frame start (state.advance place span (slot.grow span (state.distance span.field))) := by
  refine frame.update rfl (map_set_of_eq firing.spanAt rfl) (by simp [Relaxation.advance]) ?_
    (List.prefix_refl _)
  intro index old now new nowAt newAt evolves
  by_cases here : span.index = index
  · subst here
    rw [firing.slotAt, Option.some.injEq] at nowAt
    subst nowAt
    have inRange := (List.getElem?_eq_some_iff.mp firing.slotAt).1
    simp only [Relaxation.advance, List.getElem?_set_self inRange, Option.some.injEq] at newAt
    subst newAt
    exact evolves.grown (frame.watches (List.mem_of_getElem? firing.spanAt)) _
  · simp only [Relaxation.advance, List.getElem?_set_ne here, nowAt, Option.some.injEq] at newAt
    exact newAt ▸ evolves

/-- Giving up a chunk changes nothing that the frame keeps. -/
theorem Frame.dropSpans (index : Nat) (error : Error) {problems : List LayoutProblem}
    (added : state.problems <+: problems) :
    Frame start
      (dropSpans
        { state with
          slots := state.slots.modify index fun slot => { slot with error := some error }
          problems } index) := by
  refine frame.update rfl ?_ (by simp [Relaxation.dropSpans]) ?_ added
  · simp only [Relaxation.dropSpans, List.map_map, List.map_inj_left, Function.comp_apply]
    intro span _
    split <;> rfl
  · intro place old now new nowAt newAt evolves
    simp only [Relaxation.dropSpans, List.getElem?_modify, nowAt, Option.map_eq_map,
      Option.map_some, Option.some.injEq] at newAt
    subst newAt
    split
    · exact evolves.congr rfl rfl rfl fun _ => rfl
    · exact evolves

/-- Assigning offsets changes nothing that the frame keeps. -/
theorem Frame.assignOffsets :
    Frame start state.assignOffsets := by
  refine frame.update rfl rfl (by simp [Relaxation.assignOffsets]) ?_ (List.prefix_append _ _)
  intro index old now new nowAt newAt evolves
  obtain ⟨place, placed⟩ := placeSlots_getElem? 0 state.slots index
  rw [nowAt, Option.map_some] at placed
  have same : now.placeAt place = new := by
    have found : (placeSlots 0 state.slots).1[index]? = some new := newAt
    rwa [placed, Option.some.injEq] at found
  subst same
  refine evolves.congr (by simp) (by simp) (by simp) fun ruleless => ?_
  rw [Slot.placeAt_of_setter_none ruleless]

end

/-- The frame is kept by everything that a relaxation does. -/
theorem frame_preserved (start : Relaxation) : Preserved (Frame start) where
  work := by
    intro state next place grew frame effect
    cases effect with
    | idle => exact frame
    | failed firing grown refused =>
      subst grown
      exact (frame.advance firing).dropSpans _ _ (List.prefix_append _ _)
    | shrank firing grown granted less =>
      subst grown
      exact (frame.advance firing).dropSpans _ _ (List.prefix_append _ _)
    | kept firing grown granted same =>
      subst grown
      exact frame.advance firing
    | grew firing grown granted more =>
      subst grown
      have advanced := frame.advance firing
      exact Frame.assignOffsets
        ⟨advanced.home, advanced.spans, advanced.length, advanced.slots, advanced.problems⟩
  pass := fun frame => ⟨frame.home, frame.spans, frame.length, frame.slots, frame.problems⟩
  stop := fun _ frame =>
    ⟨frame.home, frame.spans, frame.length, frame.slots,
      frame.problems.trans (List.prefix_append _ _)⟩
  assign := Frame.assignOffsets

/-- The chunk at an index has failed. -/
def HasFailed (state : Relaxation) (index : Nat) : Prop :=
  ∃ slot, state.slots[index]? = some slot ∧ slot.error ≠ none

/-- A growth is not for a chunk that has failed. -/
theorem HasFailed.advance {index place : Nat} {slot : Slot} (failed : state.HasFailed index)
    (firing : state.Firing place span slot) (outcome : Outcome) :
    (state.advance place span outcome).HasFailed index := by
  obtain ⟨old, oldAt, error⟩ := failed
  have elsewhere : span.index ≠ index := by
    rintro rfl
    rw [firing.slotAt, Option.some.injEq] at oldAt
    exact error (oldAt ▸ firing.sound)
  exact ⟨old, by rw [Relaxation.advance, List.getElem?_set_ne elsewhere, oldAt], error⟩

/-- Giving up a chunk takes back no error of another. -/
theorem HasFailed.dropSpans {index : Nat} (failed : state.HasFailed index) (given : Nat)
    (error : Error) (problems : List LayoutProblem) :
    (Relaxation.dropSpans
      { state with
        slots := state.slots.modify given fun slot => { slot with error := some error }
        problems } given).HasFailed index := by
  obtain ⟨old, oldAt, before⟩ := failed
  simp only [HasFailed, Relaxation.dropSpans, List.getElem?_modify, oldAt, Option.map_eq_map,
    Option.map_some, Option.some.injEq, exists_eq_left']
  split
  · simp
  · exact before

/-- A chunk that has failed gets no rule applied to it. -/
theorem HasFailed.assignOffsets {index : Nat}
    (failed : state.HasFailed index) : state.assignOffsets.HasFailed index := by
  obtain ⟨old, oldAt, error⟩ := failed
  obtain ⟨place, placed⟩ := placeSlots_getElem? 0 state.slots index
  rw [oldAt, Option.map_some] at placed
  refine ⟨old.placeAt place, placed, ?_⟩
  obtain ⟨cause, known⟩ := Option.ne_none_iff_exists'.mp error
  simp [Slot.placeAt, known]

/-- A chunk that has failed stays so. -/
theorem hasFailed_preserved (index : Nat) : Preserved fun state => state.HasFailed index where
  work := by
    intro state next place grew failed effect
    cases effect with
    | idle => exact failed
    | failed firing => exact (failed.advance firing _).dropSpans _ _ _
    | shrank firing => exact (failed.advance firing _).dropSpans _ _ _
    | kept firing => exact failed.advance firing _
    | grew firing => exact HasFailed.assignOffsets (failed.advance firing _)
  pass := fun failed => failed
  stop := fun _ failed => failed
  assign := HasFailed.assignOffsets

end Relaxation

end Assembler
