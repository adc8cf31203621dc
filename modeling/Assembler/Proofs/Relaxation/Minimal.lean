import Assembler.Proofs.Relaxation.Orderly
import Assembler.Proofs.Relaxation.Packing
import Mathlib.Algebra.Order.BigOperators.Group.List
import Mathlib.Algebra.Order.Group.Nat

/-!
# The least forms of branches

Where only branches are watched, the forms that a relaxation ends with are the least in which every
short branch reaches its target. A `Ceiling` is another choice of forms in which it does. As long as
the relaxation is below it, all chunks are at most as long as under the ceiling, so a distance
forwards is at most, and one backwards at least, what it is there; a branch that the ceiling leaves
short does not fire (`Ceiling.near_of_firing`) and the relaxation stays below (`Ceiling.retired`).
-/

namespace Assembler

variable {source target : Nat}

/-- The distance from one chunk to another, both by their numbers, if chunks have these extents. -/
def gap (extents : List Nat) (source target : Nat) : Int :=
  (extents.take target).sum - (extents.take source).sum

/-- Longer chunks make distances forwards longer. -/
theorem gap_mono {low high : List Nat} (le : List.Forall₂ (· ≤ ·) low high)
    (forwards : source ≤ target) : gap low source target ≤ gap high source target := by
  induction le generalizing source target with
  | nil => simp [gap]
  | @cons small large smalls larges first rest ih =>
    cases target with
    | zero =>
      obtain rfl : source = 0 := by omega
      simp [gap]
    | succ target =>
      cases source with
      | zero =>
        have later := ih (Nat.zero_le target)
        simp only [gap, List.take_succ_cons, List.take_zero, List.sum_cons, List.sum_nil] at later ⊢
        omega
      | succ source =>
        have later : gap smalls source target ≤ gap larges source target := ih (by omega)
        simp only [gap, List.take_succ_cons, List.sum_cons] at later ⊢
        omega

/-- A distance forwards contains the chunk that it starts from. -/
theorem le_gap {extents : List Nat} {own : Nat} (ownAt : extents[source]? = some own)
    (forwards : source < target) : (own : Int) ≤ gap extents source target := by
  induction extents generalizing source target with
  | nil => simp at ownAt
  | cons first rest ih =>
    cases target with
    | zero => omega
    | succ target =>
      cases source with
      | zero =>
        simp only [List.getElem?_cons_zero, Option.some.injEq] at ownAt
        simp only [gap, List.take_succ_cons, List.take_zero, List.sum_cons, List.sum_nil]
        omega
      | succ source =>
        have later : (own : Int) ≤ gap rest source target := ih (by simpa using ownAt) (by omega)
        simp only [gap, List.take_succ_cons, List.sum_cons] at later ⊢
        omega

/-- A gap backwards is the negative of the gap. -/
theorem gap_swap (extents : List Nat) (source target : Nat) :
    gap extents target source = -gap extents source target := by
  unfold gap
  omega

/-- A gap backwards is not positive. -/
theorem gap_nonpos (extents : List Nat) (backwards : target ≤ source) :
    gap extents source target ≤ 0 := by
  have ordered : (extents.take target).sum ≤ (extents.take source).sum :=
    ((List.take_prefix_take_left backwards).sublist).sum_le_sum (by simp)
  unfold gap
  omega

theorem take_sum_le (extents : List Nat) (count : Nat) : (extents.take count).sum ≤ extents.sum :=
  (List.take_sublist count extents).sum_le_sum (by simp)

/-- A short branch that reaches its target over long chunks reaches it over shorter ones, too. -/
theorem window_of_le {low high : List Nat} (le : List.Forall₂ (· ≤ ·) low high) {own : Nat}
    {limit : Int} (ownAt : low[source]? = some own) (positive : 0 ≤ limit)
    (above : own - 128 ≤ gap high source target) (below : gap high source target ≤ limit) :
    own - 128 ≤ gap low source target ∧ gap low source target ≤ limit := by
  rcases Nat.lt_or_ge source target with forwards | backwards
  · have shorter := gap_mono le forwards.le
    have contains := le_gap ownAt forwards
    omega
  · have shorter := gap_mono le backwards
    rw [gap_swap high, gap_swap low] at shorter
    have before := gap_nonpos low backwards
    omega

/-- In contiguous slots below the bound of words, the offset of a chunk is the extent of the chunks
before it. -/
theorem Contiguous.toNat_offsetAmong {offset size : UInt64} {slots : List Slot}
    (contiguous : Contiguous offset slots size) (counted : ∀ slot ∈ slots, 0 ≤ slot.copies.toInt)
    (bounded : offset.toNat + (slots.map Slot.extent).sum < 2 ^ 64) (home : Int) (index : Nat) :
    (offsetAmong slots size ⟨home, index, 0⟩).toNat =
      offset.toNat + ((slots.map Slot.extent).take index).sum := by
  induction slots generalizing offset index with
  | nil =>
    have reached : size = offset := contiguous
    simp [offsetAmong, reached]
  | cons slot rest ih =>
    obtain ⟨atOffset, _, others⟩ := contiguous
    obtain ⟨countedSlot, countedRest⟩ := List.forall_mem_cons.mp counted
    simp only [List.map_cons, List.sum_cons] at bounded
    have next : slot.next.toNat = offset.toNat + slot.extent := by
      rw [Slot.toNat_next countedSlot (by rw [atOffset]; omega), atOffset]
    cases index with
    | zero => simp [offsetAmong, atOffset]
    | succ index =>
      have later := ih others countedRest (by omega) index
      simp only [offsetAmong, List.getElem?_cons_succ] at later ⊢
      rw [later, next, List.map_cons, List.take_succ_cons, List.sum_cons]
      omega

namespace Relaxation

/-- A span that watches the distance from a branch in its short form to a chunk of its section. -/
structure Aimed (start : Relaxation) (span : Span) (near : UInt64) (slot : Slot) (target : Nat) :
    Prop where
  purpose : span.purpose = .branch near
  active : span.state = .active
  slotAt : start.slots[span.index]? = some slot
  positions : span.field.positions =
    some [(1, ⟨start.home, target, 0⟩), (-1, ⟨start.home, span.index, 0⟩)]
  constant : span.field.expr.constant = 0
  low : span.low.toInt = slot.extent - 128
  high : span.high.toInt = slot.length.toNat + 127

/-- The exact distance between the starts of two chunks. -/
theorem exactValue_of_positions {field : Field} {home : Int}
    (positions : field.positions = some [(1, ⟨home, target, 0⟩), (-1, ⟨home, source, 0⟩)])
    (constant : field.expr.constant = 0) (state : Relaxation) :
    state.exactValue field =
      ((offsetAmong state.slots state.size ⟨home, target, 0⟩).toNat : Int) -
        (offsetAmong state.slots state.size ⟨home, source, 0⟩).toNat := by
  have one : (1 : Int64).toInt = 1 := by decide
  have minusOne : (-1 : Int64).toInt = -1 := by decide
  simp only [exactValue, positions, constant, Option.getD_some, List.map_cons, List.map_nil,
    List.sum_cons, List.sum_nil, one, minusOne]
  omega

/-- A choice of forms under which every short branch reaches its target, with the extents that it
gives the chunks. -/
structure Ceiling (start : Relaxation) (forms : Nat → Bool) (extents : List Nat) : Prop where
  plain : ∀ slot ∈ start.slots, slot.setter = none ∧ 0 ≤ slot.copies.toInt
  fits : List.Forall₂ (· ≤ ·) (start.slots.map Slot.extent) extents
  bounded : extents.sum < 2 ^ 63
  aimed : ∀ span ∈ start.spans, ∃ near slot target, Aimed start span near slot target ∧
    (forms span.index = true → ∃ extent, extents[span.index]? = some extent ∧
      near.toNat * slot.copies.toInt.toNat ≤ extent) ∧
    (forms span.index = false →
      slot.extent - 128 ≤ gap extents span.index target ∧
        gap extents span.index target ≤ slot.length.toNat + 127)

/-- Every branch that was settled for good is near under the ceiling. -/
def Below (state : Relaxation) (forms : Nat → Bool) : Prop :=
  ∀ span ∈ state.spans, span.state = .retired → forms span.index = true

namespace Ceiling

variable {start state : Relaxation} {forms : Nat → Bool} {extents : List Nat}

section

variable (ceiling : Ceiling start forms extents) (frame : Frame start state)
include ceiling frame

/-- Only lengths of branches change: the other parts that a slot takes up stay as they were. -/
theorem evolves {index : Nat} {old new : Slot} (oldAt : start.slots[index]? = some old)
    (newAt : state.slots[index]? = some new) :
    new.setter = none ∧ new.copies = old.copies ∧
      ((∀ near, ¬ start.Watches index (.branch near)) ∨ new.near = false →
        new.length = old.length) := by
  have evolves := frame.slots oldAt newAt
  have ruleless := (ceiling.plain old (List.mem_of_getElem? oldAt)).1
  have branches : ∀ purpose, start.Watches index purpose → ∃ near, purpose = .branch near := by
    rintro purpose ⟨span, member, _, rfl⟩
    obtain ⟨near, _, _, aimed, _⟩ := ceiling.aimed span member
    exact ⟨near, aimed.purpose⟩
  refine ⟨evolves.setter.trans ruleless, evolves.copies fun watched => ?_, fun short =>
    evolves.length (fun signed watched => ?_) short ruleless⟩
  · obtain ⟨near, impossible⟩ := branches _ watched
    cases impossible
  · obtain ⟨near, impossible⟩ := branches _ watched
    cases impossible

variable (orderly : state.Orderly) (clean : state.problems = []) (below : state.Below forms)
include orderly clean below

/-- As long as a relaxation is below the ceiling, so are the extents of its chunks. -/
theorem extents_le :
    List.Forall₂ (· ≤ ·) (state.slots.map Slot.extent) extents := by
  obtain ⟨sameLength, initially⟩ := List.forall₂_iff_get.mp ceiling.fits
  rw [List.length_map] at sameLength
  refine List.forall₂_iff_get.mpr ⟨by rw [List.length_map, frame.length, sameLength], ?_⟩
  intro index inState inExtents
  rw [List.length_map] at inState
  have inStart : index < start.slots.length := frame.length ▸ inState
  have oldAt : start.slots[index]? = some start.slots[index] := List.getElem?_eq_getElem inStart
  have newAt : state.slots[index]? = some state.slots[index] := List.getElem?_eq_getElem inState
  have first : start.slots[index].extent ≤ extents[index] := by
    simpa using initially index (by simpa using inStart) inExtents
  obtain ⟨_, copies, length⟩ := ceiling.evolves frame oldAt newAt
  have unchanged : state.slots[index].length = start.slots[index].length →
      state.slots[index].extent ≤ extents[index] := by
    intro same
    rwa [Slot.extent, same, copies]
  rw [List.get_eq_getElem, List.get_eq_getElem, List.getElem_map]
  by_cases watched : ∃ span ∈ state.spans, span.index = index
  · obtain ⟨span, member, rfl⟩ := watched
    obtain ⟨original, originalMember, same⟩ := frame.original member
    obtain ⟨sameIndex, samePurpose, _⟩ := Span.agree_of_registered same
    obtain ⟨near, slot, target, aimed, above, _⟩ := ceiling.aimed original originalMember
    obtain ⟨found, foundAt, _, _, holds⟩ := orderly.coherent.watched span member
    obtain rfl : state.slots[span.index] = found := Option.some.inj (newAt.symm.trans foundAt)
    have purpose : span.purpose = .branch near := samePurpose.symm.trans aimed.purpose
    cases known : span.state with
    | failed => exact absurd known (orderly.kept clean span member)
    | active =>
      have short : state.slots[span.index].near = false := by
        simpa [Span.Holds, known, purpose] using holds
      exact unchanged (length (.inr short))
    | retired =>
      have grown : state.slots[span.index].near = true ∧
          state.slots[span.index].length = near := by
        simpa [Span.Holds, known, purpose] using holds
      obtain ⟨extent, extentAt, le⟩ := above (sameIndex ▸ below span member known)
      have slotAt := aimed.slotAt
      rw [sameIndex, oldAt, Option.some.injEq] at slotAt
      rw [sameIndex, List.getElem?_eq_getElem inExtents, Option.some.injEq] at extentAt
      rw [Slot.extent, grown.2, copies, slotAt, extentAt]
      exact le
  · refine unchanged (length (.inl fun near => ?_))
    rintro ⟨span, member, here, _⟩
    have registered : span.registered ∈ state.spans.map Span.registered :=
      frame.spans ▸ List.mem_map_of_mem member
    obtain ⟨later, laterMember, same⟩ := List.mem_map.mp registered
    exact watched ⟨later, laterMember, (Span.agree_of_registered same).1.trans here⟩

/-- A branch that fires is near under the ceiling. -/
theorem near_of_firing {place : Nat} {span : Span} {slot : Slot}
    (firing : state.Firing place span slot) :
    forms span.index = true := by
  by_contra notNear
  have short : forms span.index = false := by simpa using notNear
  have member := List.mem_of_getElem? firing.spanAt
  have active := active_of_isPending firing.pending
  obtain ⟨first, firstMember, same⟩ := frame.original member
  obtain ⟨sameIndex, samePurpose, sameField, sameLow, sameHigh⟩ := Span.agree_of_registered same
  obtain ⟨near, old, target, aimed, _, window⟩ := ceiling.aimed first firstMember
  obtain ⟨above, within⟩ := window (sameIndex ▸ short)
  -- The branch is still as long as at the start.
  obtain ⟨found, foundAt, _, _, holds⟩ := orderly.coherent.watched span member
  obtain rfl : slot = found := Option.some.inj (firing.slotAt.symm.trans foundAt)
  have isShort : slot.near = false := by
    simpa [Span.Holds, active, samePurpose.symm.trans aimed.purpose] using holds
  obtain ⟨_, copies, length⟩ := ceiling.evolves frame (sameIndex ▸ aimed.slotAt) firing.slotAt
  have own : (state.slots.map Slot.extent)[span.index]? = some old.extent := by
    rw [List.getElem?_map, firing.slotAt, Option.map_some, Slot.extent, length (.inr isShort),
      copies, Slot.extent]
  have le := ceiling.extents_le frame orderly clean below
  rw [sameIndex] at above within
  obtain ⟨lower, upper⟩ := window_of_le le own (by omega) above within
  -- So the distance that it sees lies in its window.
  have counted : ∀ slot ∈ state.slots, 0 ≤ slot.copies.toInt := by
    intro other otherMember
    obtain ⟨index, otherAt⟩ := List.mem_iff_getElem?.mp otherMember
    have inStart : index < start.slots.length :=
      frame.length ▸ (List.getElem?_eq_some_iff.mp otherAt).1
    rw [(ceiling.evolves frame (List.getElem?_eq_getElem inStart) otherAt).2.1]
    exact (ceiling.plain _ (List.getElem_mem inStart)).2
  have bounded : (state.slots.map Slot.extent).sum < 2 ^ 63 :=
    Nat.lt_of_le_of_lt (List.Forall₂.sum_le_sum le) ceiling.bounded
  have offset := (orderly.contiguous clean).toNat_offsetAmong counted
    (by simpa using bounded.trans (by decide))
  have value : (Int64.ofInt (gap (state.slots.map Slot.extent) span.index target)).toInt =
      gap (state.slots.map Slot.extent) span.index target := by
    rw [← isWord_iff_toInt_ofInt, isWord_iff]
    have highest := take_sum_le (state.slots.map Slot.extent) target
    have lowest := take_sum_le (state.slots.map Slot.extent) span.index
    unfold gap
    omega
  have sees : state.distance first.field =
      some (Int64.ofInt (gap (state.slots.map Slot.extent) span.index target)) := by
    rw [distance_eq_some_iff, exactValue_of_positions aimed.positions aimed.constant, value, offset,
      offset, sameIndex]
    exact ⟨by simp [Field.isDistanceIn, aimed.positions, frame.home], by simp [gap]⟩
  have pending := firing.pending
  simp only [isPending, Span.fires, ← samePurpose, aimed.purpose, Purpose.policy, ← sameField, sees,
    Option.getD_some, Bool.and_eq_true, Bool.or_eq_true, decide_eq_true_eq, ← sameLow, ← sameHigh,
    Int64.lt_iff_toInt_lt, aimed.low, aimed.high, value] at pending
  omega

/-- What is done for a span settles no branch that is short under the ceiling. -/
theorem below_advance {place : Nat} {span : Span} {slot : Slot}
    (firing : state.Firing place span slot) (outcome : Outcome) :
    (state.advance place span outcome).Below forms := by
  intro other member retired
  rcases List.mem_or_eq_of_mem_set member with old | rfl
  · exact below other old retired
  · have near := ceiling.near_of_firing frame orderly clean below firing
    exact near

end

/-- A relaxation without a problem stays below the ceiling. -/
theorem retired (ceiling : Ceiling start forms extents) (orderly : start.assignOffsets.Orderly)
    (reached : start.assignOffsets.Reaches state) (clean : state.problems = []) :
    state.Below forms := by
  induction reached with
  | refl =>
    intro span member retired
    obtain ⟨_, _, _, aimed, _⟩ := ceiling.aimed span member
    rw [aimed.active] at retired
    cases retired
  | pass _ ih => exact ih clean
  | stop => simp [breakOff] at clean
  | assign _ ih => exact ih (List.append_eq_nil_iff.mp clean).1
  | @work state next place grew prior effect ih =>
    have frame := (frame_preserved start).of_reaches prior (Frame.refl start).assignOffsets
    have ordered := orderly_preserved.of_reaches prior orderly
    cases effect with
    | idle => exact ih clean
    | failed => simp [fail, dropSpans] at clean
    | shrank => simp [collapse, dropSpans, breakOff] at clean
    | kept firing => exact ceiling.below_advance frame ordered clean (ih clean) firing _
    | grew firing =>
      have before : state.problems = [] := (List.append_eq_nil_iff.mp clean).1
      exact ceiling.below_advance frame ordered before (ih before) firing _

end Ceiling

end Relaxation

end Assembler
