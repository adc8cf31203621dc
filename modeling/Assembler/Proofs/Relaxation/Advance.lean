import Assembler.Proofs.Relaxation.Frame
import Assembler.Proofs.Relaxation.Packing
import Assembler.Proofs.Relaxation.Termination

/-!
# Offsets only advance

A relaxation moves no chunk back, whatever it does: neither a growth nor a failure, and no padding
either, which takes up a part of a move only. `Advancing.effect` shows it for the work on one span
and `Advancing.turn` for one turn of the loops.
-/

namespace Assembler

variable {span : Span} {slot : Slot} {place : Nat}

namespace Relaxation

/-- The size of a section in unbounded numbers. -/
def exactSize (state : Relaxation) : Nat := (state.slots.map Slot.extent).sum

/-- No offset has moved back, and the section has not become smaller. -/
structure Advances (before after : Relaxation) : Prop where
  offsets : List.Forall₂ (· ≤ ·) (before.slots.map Slot.offset) (after.slots.map Slot.offset)
  size : before.size ≤ after.size

/-- A state with the same offsets and size has advanced by nothing. -/
theorem Advances.of_eq {before after : Relaxation}
    (offsets : after.slots.map Slot.offset = before.slots.map Slot.offset)
    (size : after.size = before.size) : before.Advances after where
  offsets := offsets ▸ List.forall₂_same.mpr fun _ _ => UInt64.le_refl _
  size := size ▸ UInt64.le_refl _

/-- No near form is shorter than the form that its branch starts in. -/
def Growable (start : Relaxation) : Prop :=
  ∀ span ∈ start.spans, ∀ near slot, span.purpose = .branch near →
    start.slots[span.index]? = some slot → slot.length ≤ near

/-- What holds along a relaxation from its first offsets on. -/
structure Advancing (start state : Relaxation) : Prop where
  frame : Frame start state
  coherent : state.Coherent
  grounded : Grounded state.slots state.size

variable {start state : Relaxation}

section

variable (growable : start.Growable) (distinct : start.spanKeys.Nodup)
include growable distinct

/-- A branch that is still watched has the length that it started with. -/
theorem length_le_near (frame : Frame start state) (coherent : state.Coherent)
    (member : span ∈ state.spans) (active : span.state = .active)
    (slotAt : state.slots[span.index]? = some slot) {near : UInt64}
    (purpose : span.purpose = .branch near) : slot.length ≤ near := by
  obtain ⟨original, originalMember, sameIndex, samePurpose⟩ := frame.watches member
  obtain ⟨found, foundAt, ruleless, _, holds⟩ := coherent.watched span member
  rw [slotAt, Option.some.injEq] at foundAt
  subst foundAt
  have short : slot.near = false := by simpa [Span.Holds, active, purpose] using holds
  have inRange : span.index < start.slots.length :=
    frame.length ▸ (List.getElem?_eq_some_iff.mp slotAt).1
  have oldAt : start.slots[span.index]? = some start.slots[span.index] :=
    List.getElem?_eq_getElem inRange
  have evolves := frame.slots oldAt slotAt
  rw [evolves.length ?_ (.inr short) (evolves.setter ▸ ruleless)]
  · exact growable original originalMember near _ (samePurpose.trans purpose)
      (by rw [sameIndex, oldAt])
  · -- A chunk has one span of the kind only, and that one is a branch's.
    rintro signed ⟨other, otherMember, otherIndex, otherPurpose⟩
    have same : other = original := List.inj_on_of_nodup_map distinct otherMember originalMember (by
      rw [otherIndex, sameIndex, otherPurpose, samePurpose, purpose, Purpose.id, Purpose.id])
    rw [same, samePurpose, purpose] at otherPurpose
    cases otherPurpose

/-- A growth for a span that fires takes no bytes away. -/
theorem Firing.extent_le (frame : Frame start state) (coherent : state.Coherent)
    (firing : state.Firing place span slot) (distance : Option Int64) :
    slot.extent ≤ (slot.grow span distance).slot.extent := by
  have member := List.mem_of_getElem? firing.spanAt
  have active := active_of_isPending firing.pending
  obtain ⟨found, foundAt, _, _, holds⟩ := coherent.watched span member
  rw [firing.slotAt, Option.some.injEq] at foundAt
  subst foundAt
  refine Slot.extent_le_grow ?_ ?_ distance
  · intro purpose
    have promised : span.Traced state.home ∧ slot.copies = span.seen ∧ 0 ≤ span.seen := by
      simpa [Span.Holds, active, purpose] using holds
    exact promised.2.1
  · intro near purpose
    exact length_le_near growable distinct frame coherent member active firing.slotAt purpose

/-- A growth for a span that fires keeps slots grounded. -/
theorem Advancing.grow (advancing : Advancing start state)
    (firing : state.Firing place span slot) (distance : Option Int64) :
    Grounded (state.slots.set span.index (slot.grow span distance).slot) state.size := by
  obtain ⟨found, foundAt, ruleless, _⟩ :=
    advancing.coherent.watched span (List.mem_of_getElem? firing.spanAt)
  rw [firing.slotAt, Option.some.injEq] at foundAt
  subst foundAt
  exact advancing.grounded.grow firing.slotAt ruleless
    (firing.extent_le growable distinct advancing.frame advancing.coherent distance)

end

/-- Failing leaves everything but the error alone. -/
theorem map_fail {β : Type} (view : Slot → β)
    (blind : ∀ (slot : Slot) (error : Error), view { slot with error := some error } = view slot)
    (slots : List Slot) (index : Nat) (error : Error) :
    (slots.modify index fun slot => { slot with error := some error }).map view =
      slots.map view := by
  apply List.ext_getElem?
  intro place
  rw [List.getElem?_map, List.getElem?_map, List.getElem?_modify]
  cases slots[place]? with
  | none => rfl
  | some slot => by_cases here : index = place <;> simp [here, blind]

/-- A step moves no offset back. -/
theorem Advancing.effect (growable : start.Growable) (distinct : start.spanKeys.Nodup)
    (advancing : Advancing start state) {next : Relaxation} {grew : Bool}
    (effect : state.Effect place next grew) (bounded : next.exactSize < 2 ^ 63) :
    state.Advances next ∧ Advancing start next := by
  have frame := (frame_preserved start).work advancing.frame effect
  have coherent := coherent_preserved.work advancing.coherent effect
  cases effect with
  | idle => exact ⟨.of_eq rfl rfl, advancing⟩
  | @failed span slot outcome error firing grown refused =>
    subst grown
    have grounded := advancing.grow growable distinct firing (state.distance span.field)
    refine ⟨.of_eq ?_ rfl, frame, coherent, grounded.fail span.index ?_⟩
    · exact (map_fail _ (fun _ _ => rfl) _ _ _).trans
        (map_set_of_eq firing.slotAt (Slot.grow_offset ..))
    · intro reached start same
      exact Slot.grow_error_ne (same ▸ refused)
  | @shrank span slot outcome firing grown granted less =>
    subst grown
    have grounded := advancing.grow growable distinct firing (state.distance span.field)
    refine ⟨.of_eq ?_ rfl, frame, coherent, grounded.fail span.index (by simp)⟩
    exact (map_fail _ (fun _ _ => rfl) _ _ _).trans
      (map_set_of_eq firing.slotAt (Slot.grow_offset ..))
  | @kept span slot outcome firing grown granted same =>
    subst grown
    exact ⟨.of_eq (map_set_of_eq firing.slotAt (Slot.grow_offset ..)) rfl, frame, coherent,
      advancing.grow growable distinct firing (state.distance span.field)⟩
  | @grew span slot outcome firing grown granted more =>
    subst grown
    have grounded := advancing.grow growable distinct firing (state.distance span.field)
    obtain ⟨⟨offsets, size⟩, placed⟩ := grounded.place bounded
    rw [map_set_of_eq firing.slotAt (Slot.grow_offset ..)] at offsets
    exact ⟨⟨offsets, size⟩, frame, coherent, placed⟩

/-- Assigning the offsets anew moves nothing back. -/
theorem Advancing.assign (advancing : Advancing start state)
    (bounded : state.assignOffsets.exactSize < 2 ^ 63) :
    state.Advances state.assignOffsets ∧ Advancing start state.assignOffsets := by
  obtain ⟨⟨offsets, size⟩, placed⟩ := advancing.grounded.place bounded
  exact ⟨⟨offsets, size⟩, advancing.frame.assignOffsets, advancing.coherent.assignOffsets, placed⟩

theorem Advancing.pass (advancing : Advancing start state) : Advancing start state.beginPass :=
  ⟨(frame_preserved start).pass advancing.frame, coherent_preserved.pass advancing.coherent,
    advancing.grounded⟩

theorem Advancing.stop (advancing : Advancing start state) (error : Error) :
    Advancing start (state.breakOff error) :=
  ⟨(frame_preserved start).stop error advancing.frame,
    coherent_preserved.stop error advancing.coherent, advancing.grounded⟩

namespace Advancing

variable {limit : Nat} {budget : Int}

/-- A turn moves no offset back. -/
theorem turn (growable : start.Growable) (distinct : start.spanKeys.Nodup) {loop : Loop}
    (advancing : Advancing start loop.state)
    (bounded : (loop.turn limit budget).state.exactSize < 2 ^ 63) :
    loop.state.Advances (loop.turn limit budget).state ∧
      Advancing start (loop.turn limit budget).state := by
  have effect : Loop.TurnEffect loop (loop.turn limit budget).state := Loop.turn_effect loop
  generalize (loop.turn limit budget).state = next at effect bounded ⊢
  cases effect with
  | still idle => exact ⟨.of_eq rfl rfl, advancing⟩
  | begun passing => exact ⟨.of_eq rfl rfl, advancing.pass⟩
  | exceeded passing passes pending => exact ⟨.of_eq rfl rfl, advancing.pass.stop _⟩
  | worked queued effect => exact advancing.effect growable distinct effect bounded
  | spent queued effect growths pending =>
    obtain ⟨advances, later⟩ := advancing.effect growable distinct effect bounded
    exact ⟨⟨advances.offsets, advances.size⟩, later.stop _⟩

/-- All turns of the loops, as long as the exact size stays below the bound of words. -/
theorem turns (growable : start.Growable) (distinct : start.spanKeys.Nodup) {first : Loop}
    (advancing : Advancing start first.state) {turns : Nat}
    (bounded : ∀ earlier ≤ turns,
      ((Loop.turn limit budget)^[earlier] first).state.exactSize < 2 ^ 63) :
    Advancing start ((Loop.turn limit budget)^[turns] first).state := by
  induction turns with
  | zero => exact advancing
  | succ turns ih =>
    have before := ih fun earlier within => bounded earlier (by omega)
    have now := bounded (turns + 1) (Nat.le_refl _)
    rw [Function.iterate_succ_apply'] at now ⊢
    exact (before.turn growable distinct now).2

end Advancing

end Relaxation

end Assembler
