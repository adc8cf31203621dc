import Assembler.Proofs.Leb128.Size
import Assembler.Proofs.Relaxation.Distance
import Assembler.Proofs.Relaxation.Step

/-!
# Spans and slots agree

Every span makes a promise about its slot: a repeat count is the distance seen last, an integer has
room for it, and a branch is short as long as it is watched. `Coherent` says that all promises hold.
Nothing that a relaxation does breaks it (`coherent_preserved`), also when chunks fail on the way.
-/

namespace Assembler

variable {state : Relaxation} {place : Nat}

/-- A span that has seen a distance other than zero watches a distance of its section. -/
def Span.Traced (span : Span) (home : Nat) : Prop :=
  span.seen = 0 ∨ span.field.isDistanceIn home = true

/-- What a span promises about the slot of its chunk. A span that failed promises nothing, and only
a branch is ever settled for good. -/
def Span.Holds (span : Span) (home : Nat) (slot : Slot) : Prop :=
  match span.state, span.purpose with
  | .failed, _ => True
  | .active, .copies => span.Traced home ∧ slot.copies = span.seen ∧ 0 ≤ span.seen
  | .active, .leb128 signed =>
    span.Traced home ∧ Leb128.size span.seen.toInt signed ≤ slot.length.toNat
  | .active, .branch _ => slot.near = false
  | .retired, .branch nearLength => slot.near = true ∧ slot.length = nearLength
  | .retired, .copies | .retired, .leb128 _ => False

/-- A promise about the number of copies does not mention the form, and one about the form does not
mention the number of copies. -/
theorem Span.Holds.frame {span : Span} {home : Nat} {slot other : Slot}
    (holds : span.Holds home slot) (copies : span.purpose.id = 0 → other.copies = slot.copies)
    (form : span.purpose.id = 1 → other.length = slot.length ∧ other.near = slot.near) :
    span.Holds home other := by
  unfold Span.Holds at holds ⊢
  cases known : span.state <;> cases purpose : span.purpose <;>
    simp_all [Purpose.id]

namespace Slot

variable (slot : Slot) (span : Span) (distance : Option Int64)

@[simp] theorem grow_setter : (slot.grow span distance).slot.setter = slot.setter := by
  unfold grow
  repeat' split
  all_goals simp [Outcome.slot]

@[simp] theorem grow_offset : (slot.grow span distance).slot.offset = slot.offset := by
  unfold grow
  repeat' split
  all_goals simp [Outcome.slot]

@[simp] theorem grow_error : (slot.grow span distance).slot.error = slot.error := by
  unfold grow
  repeat' split
  all_goals simp [Outcome.slot]

variable {slot span distance}

/-- Growing in length leaves the number of copies alone. -/
theorem grow_copies (form : span.purpose.id = 1) :
    (slot.grow span distance).slot.copies = slot.copies := by
  unfold grow
  cases purpose : span.purpose with
  | copies => simp [purpose, Purpose.id] at form
  | leb128 signed =>
    dsimp only
    split <;> rfl
  | branch nearLength => rfl

/-- Growing in number leaves the form and the length alone. -/
theorem grow_form (counted : span.purpose.id = 0) :
    (slot.grow span distance).slot.length = slot.length ∧
      (slot.grow span distance).slot.near = slot.near := by
  unfold grow
  cases purpose : span.purpose with
  | copies =>
    dsimp only
    repeat' split
    all_goals exact ⟨rfl, rfl⟩
  | leb128 | branch => simp [purpose, Purpose.id] at counted

end Slot

/-- A slot that could grow keeps the promise of the span that it grew for. -/
theorem Span.holds_grow {span : Span} {slot : Slot} {outcome : Outcome}
    (grown : slot.grow span (state.distance span.field) = outcome)
    (granted : outcome.error = none) :
    ({ span with seen := state.seenBy span, state := outcome.spanState } : Span).Holds state.home
      outcome.slot := by
  subst grown
  have traced : ∀ value, state.distance span.field = some value →
      span.field.isDistanceIn state.home = true :=
    fun value found => (Relaxation.distance_eq_some_iff.mp found).1
  cases purpose : span.purpose with
  | copies =>
    cases found : state.distance span.field with
    | none => simp [Slot.grow, purpose, found, Outcome.error] at granted
    | some count =>
      by_cases negative : count < 0
      · simp [Slot.grow, purpose, found, negative, Outcome.error] at granted
      · by_cases less : count < span.seen
        · simp [Slot.grow, purpose, found, negative, less, Outcome.error] at granted
        · have enough : 0 ≤ count := Int64.not_lt.mp negative
          simp [Slot.grow, purpose, found, negative, less, Span.Holds, Outcome.spanState,
            Outcome.slot, Relaxation.seenBy, Span.Traced, traced count found, enough]
  | leb128 signed =>
    cases found : state.distance span.field with
    | none => simp [Slot.grow, purpose, found, Outcome.error] at granted
    | some value =>
      have unwrapped := Leb128.toNat_size_word value signed
      simp only [Slot.grow, purpose, Option.isNone_some, Bool.false_eq_true, if_false,
        Span.Holds, Outcome.spanState, Outcome.slot, Relaxation.seenBy, found, Span.Traced,
        traced value found, or_true, Option.getD_some, true_and]
      split
      case isTrue less => exact Nat.le_of_eq unwrapped.symm
      case isFalse notLess =>
        rw [UInt64.lt_iff_toNat_lt, unwrapped] at notLess
        omega
  | branch nearLength =>
    simp [Slot.grow, purpose, Span.Holds, Outcome.spanState, Outcome.slot]

namespace Relaxation

/-- A span has a slot without a rule for its length. The slot has not failed while the span is
active, and it keeps the span's promise. -/
def Watched (home : Nat) (slots : List Slot) (span : Span) : Prop :=
  ∃ slot, slots[span.index]? = some slot ∧ slot.setter = none ∧
    (span.state = .active → slot.error = none) ∧ span.Holds home slot

/-- The chunk of a span and the kind of thing that it watches for it. -/
def spanKeys (state : Relaxation) : List (Nat × Nat) :=
  state.spans.map fun span => (span.index, span.purpose.id)

/-- Every span is watched, and a chunk has at most one span of each kind. -/
structure Coherent (state : Relaxation) : Prop where
  watched : ∀ span ∈ state.spans, Watched state.home state.slots span
  distinct : state.spanKeys.Nodup

/-- Exchanging an element for one with the same image keeps the images. -/
theorem map_set_of_eq {α β : Type} {image : α → β} {list : List α} {old new : α}
    (found : list[place]? = some old) (same : image new = image old) :
    (list.set place new).map image = list.map image := by
  obtain ⟨inRange, rfl⟩ := List.getElem?_eq_some_iff.mp found
  rw [List.map_set, same, ← List.getElem_map image (h := by simpa using inRange)]
  exact List.set_getElem_self _

/-- A growth keeps the keys of the spans. -/
theorem spanKeys_advance {span : Span} (spanAt : state.spans[place]? = some span)
    (outcome : Outcome) :
    (state.advance place span outcome).spanKeys = state.spanKeys :=
  map_set_of_eq spanAt rfl

@[simp] theorem spanKeys_dropSpans (state : Relaxation) (index : Nat) :
    (state.dropSpans index).spanKeys = state.spanKeys := by
  unfold spanKeys dropSpans
  simp only [List.map_map, List.map_inj_left, Function.comp_apply]
  intro span _
  split <;> rfl

/-- Two spans at different places of one chunk are of different kinds. -/
theorem Coherent.id_ne (coherent : state.Coherent) {first second : Nat} {span other : Span}
    (spanAt : state.spans[first]? = some span) (otherAt : state.spans[second]? = some other)
    (apart : first ≠ second)
    (together : span.index = other.index) : span.purpose.id ≠ other.purpose.id := by
  intro sameId
  have firstKey : state.spanKeys[first]? = some (span.index, span.purpose.id) := by
    simp [spanKeys, spanAt]
  have secondKey : state.spanKeys[second]? = some (span.index, span.purpose.id) := by
    simp [spanKeys, otherAt, together, sameId]
  have inRange : first < state.spanKeys.length := (List.getElem?_eq_some_iff.mp firstKey).1
  exact apart ((List.getElem?_inj inRange coherent.distinct).mp (firstKey.trans secondKey.symm))

/-- A growth for one span keeps the promises of all others. -/
theorem Coherent.bystander (coherent : state.Coherent) {index : Nat} {span other : Span}
    {slot : Slot} (firing : state.Firing place span slot)
    (otherAt : state.spans[index]? = some other) (apart : place ≠ index) :
    Watched state.home
      (state.slots.set span.index (slot.grow span (state.distance span.field)).slot) other := by
  obtain ⟨found, foundAt, ruleless, sound, holds⟩ :=
    coherent.watched other (List.mem_of_getElem? otherAt)
  by_cases together : span.index = other.index
  · have sameSlot : found = slot := by
      have slotAt := firing.slotAt
      rw [together, foundAt, Option.some.injEq] at slotAt
      exact slotAt
    subst sameSlot
    have kinds := coherent.id_ne firing.spanAt otherAt apart together
    refine ⟨(found.grow span (state.distance span.field)).slot, ?_, by simpa using ruleless,
      by simpa using fun _ => firing.sound, holds.frame ?_ ?_⟩
    · rw [← together]
      exact List.getElem?_set_self (List.getElem?_eq_some_iff.mp firing.slotAt).1
    · intro counted
      apply Slot.grow_copies
      cases purpose : span.purpose <;> simp_all [Purpose.id]
    · intro formed
      apply Slot.grow_form
      cases purpose : span.purpose <;> simp_all [Purpose.id]
  · exact ⟨found, by rwa [List.getElem?_set_ne together], ruleless, sound, holds⟩

/-- A growth that is not refused keeps all promises. -/
theorem Coherent.advance (coherent : state.Coherent) {span : Span} {slot : Slot}
    (firing : state.Firing place span slot)
    (granted : (slot.grow span (state.distance span.field)).error = none) :
    (state.advance place span (slot.grow span (state.distance span.field))).Coherent where
  watched := by
    intro other member
    obtain ⟨index, otherAt⟩ := List.mem_iff_getElem?.mp member
    by_cases here : place = index
    · subst here
      have inRange : place < state.spans.length := (List.getElem?_eq_some_iff.mp firing.spanAt).1
      simp only [Relaxation.advance, List.getElem?_set_self inRange, Option.some.injEq] at otherAt
      obtain ⟨found, foundAt, ruleless, _⟩ :=
        coherent.watched span (List.mem_of_getElem? firing.spanAt)
      rw [firing.slotAt, Option.some.injEq] at foundAt
      subst foundAt
      subst otherAt
      exact ⟨_, List.getElem?_set_self (List.getElem?_eq_some_iff.mp firing.slotAt).1,
        by simpa using ruleless, by simpa using fun _ => firing.sound, Span.holds_grow rfl granted⟩
    · simp only [Relaxation.advance, List.getElem?_set_ne here] at otherAt
      exact coherent.bystander firing otherAt here
  distinct := by
    rw [spanKeys_advance firing.spanAt]
    exact coherent.distinct

/-- Giving up a chunk and dropping its spans keeps all promises, whatever its active spans
promised before. -/
theorem coherent_dropSpans {index : Nat} {slot : Slot} (slotAt : state.slots[index]? = some slot)
    (ruleless : slot.setter = none) (error : Error) (problems : List LayoutProblem)
    (watched : ∀ span ∈ state.spans, ¬ (span.index = index ∧ span.state = .active) →
      Watched state.home state.slots span) (distinct : state.spanKeys.Nodup) :
    (dropSpans
      { state with
        slots := state.slots.modify index fun slot => { slot with error := some error }
        problems } index).Coherent where
  watched := by
    intro span member
    simp only [dropSpans, List.mem_map] at member
    obtain ⟨old, oldMember, rfl⟩ := member
    by_cases dropped : old.index = index ∧ old.state = .active
    · refine ⟨{ slot with error := some error }, ?_, ruleless, ?_, ?_⟩
      · simp [dropped, dropSpans, slotAt]
      · simp [dropped]
      · simp [dropped, Span.Holds]
    · obtain ⟨found, foundAt, foundRuleless, sound, holds⟩ := watched old oldMember dropped
      have unchanged : (if (decide (old.index = index) && decide (old.state = .active)) = true then
          { old with state := .failed } else old) = old := if_neg (by simpa using dropped)
      rw [unchanged]
      by_cases here : old.index = index
      · refine ⟨{ found with error := some error }, ?_, foundRuleless, ?_, holds.frame ?_ ?_⟩
        · simp [dropSpans, here ▸ foundAt, here]
        · exact fun active => absurd ⟨here, active⟩ dropped
        · exact fun _ => rfl
        · exact fun _ => ⟨rfl, rfl⟩
      · refine ⟨found, ?_, foundRuleless, sound, holds⟩
        exact (List.getElem?_modify_ne _ _ (Ne.symm here)).trans foundAt
  distinct := by
    rw [spanKeys_dropSpans]
    exact distinct

/-- Assigning offsets keeps all promises: slots with spans only move. -/
theorem Coherent.assignOffsets (coherent : state.Coherent) :
    state.assignOffsets.Coherent where
  watched := by
    intro span member
    obtain ⟨slot, slotAt, ruleless, sound, holds⟩ := coherent.watched span member
    obtain ⟨place, placed⟩ := placeSlots_getElem? 0 state.slots span.index
    rw [slotAt, Option.map_some, Slot.placeAt_of_setter_none ruleless] at placed
    exact ⟨_, placed, ruleless, sound, holds.frame (fun _ => rfl) (fun _ => ⟨rfl, rfl⟩)⟩
  distinct := coherent.distinct

/-- Nothing that a relaxation does breaks a promise. -/
theorem coherent_preserved : Preserved Coherent where
  work := by
    intro state next place grew coherent effect
    have ruleless : ∀ {span slot}, state.Firing place span slot → slot.setter = none := by
      intro span slot firing
      obtain ⟨found, foundAt, ruleless, _⟩ :=
        coherent.watched span (List.mem_of_getElem? firing.spanAt)
      rw [firing.slotAt, Option.some.injEq] at foundAt
      rwa [foundAt]
    cases effect with
    | idle => exact coherent
    | failed firing grown refused =>
      subst grown
      refine coherent_dropSpans
        (List.getElem?_set_self (List.getElem?_eq_some_iff.mp firing.slotAt).1)
        (by simpa using ruleless firing) _ _ ?_ ?_
      · intro other member kept
        obtain ⟨index, otherAt⟩ := List.mem_iff_getElem?.mp member
        by_cases here : place = index
        · -- The span that was worked on is active, so it is dropped.
          subst here
          have inRange := (List.getElem?_eq_some_iff.mp firing.spanAt).1
          simp only [Relaxation.advance, List.getElem?_set_self inRange, Option.some.injEq]
            at otherAt
          subst otherAt
          refine absurd ⟨rfl, ?_⟩ kept
          revert refused
          cases Slot.grow _ _ _ <;> simp [Outcome.error, Outcome.spanState]
        · simp only [Relaxation.advance, List.getElem?_set_ne here] at otherAt
          exact coherent.bystander firing otherAt here
      · rw [spanKeys_advance firing.spanAt]
        exact coherent.distinct
    | shrank firing grown granted less =>
      subst grown
      have advanced := coherent.advance firing granted
      exact coherent_dropSpans
        (List.getElem?_set_self (List.getElem?_eq_some_iff.mp firing.slotAt).1)
        (by simpa using ruleless firing) _ _ (fun span member _ => advanced.watched span member)
        advanced.distinct
    | kept firing grown granted same =>
      subst grown
      exact coherent.advance firing granted
    | grew firing grown granted more =>
      subst grown
      have advanced := coherent.advance firing granted
      exact Coherent.assignOffsets ⟨advanced.watched, advanced.distinct⟩
  pass := fun coherent => ⟨coherent.watched, coherent.distinct⟩
  stop := fun _ coherent => ⟨coherent.watched, coherent.distinct⟩
  assign := Coherent.assignOffsets

end Relaxation

end Assembler
