import Assembler.Proofs.Relaxation.Frame

/-!
# Relaxations without problems

As long as a relaxation has met no problem, no slot and no span has failed and all slots are
contiguous, also between two assignments of offsets: a chunk that changes without a growth takes up
the same bytes. So the last assignment of offsets moves nothing (`assignOffsets_eq_self`), and what
was settled before it stays settled.
-/

namespace Assembler.Relaxation

variable {state : Relaxation}

/-- Spans and slots agree, and without a problem nothing has failed and slots are contiguous. -/
structure Orderly (state : Relaxation) : Prop where
  coherent : state.Coherent
  kept : state.problems = [] → ∀ span ∈ state.spans, span.state ≠ .failed
  sound : state.problems = [] → ∀ slot ∈ state.slots, slot.error = none
  contiguous : state.problems = [] → Contiguous 0 state.slots state.size

/-- After an assignment of offsets without a problem, no slot has failed. -/
theorem sound_assignOffsets
    (sound : state.problems = [] → ∀ slot ∈ state.slots, slot.error = none)
    (clean : state.assignOffsets.problems = []) :
    ∀ slot ∈ state.assignOffsets.slots, slot.error = none := by
  obtain ⟨before, placed⟩ := List.append_eq_nil_iff.mp clean
  intro slot member
  obtain ⟨index, slotAt⟩ := List.mem_iff_getElem?.mp member
  obtain ⟨place, moved⟩ := placeSlots_getElem? 0 state.slots index
  cases oldAt : state.slots[index]? with
  | none =>
    have found : (placeSlots 0 state.slots).1[index]? = some slot := slotAt
    simp [moved, oldAt] at found
  | some old =>
    exact placementProblems_eq_nil_iff.mp placed index old slot oldAt slotAt
      (sound before old (List.mem_of_getElem? oldAt))

/-- Slots with new offsets lie one behind the other. -/
theorem contiguous_assignOffsets (state : Relaxation) :
    Contiguous 0 state.assignOffsets.slots state.assignOffsets.size :=
  contiguous_placeSlots 0 state.slots

/-- A relaxation is orderly once its offsets were assigned. -/
theorem orderly_assignOffsets (coherent : state.Coherent)
    (kept : state.problems = [] → ∀ span ∈ state.spans, span.state ≠ .failed)
    (sound : state.problems = [] → ∀ slot ∈ state.slots, slot.error = none) :
    state.assignOffsets.Orderly where
  coherent := coherent.assignOffsets
  kept := fun clean => kept (List.append_eq_nil_iff.mp clean).1
  sound := sound_assignOffsets sound
  contiguous := fun _ => contiguous_assignOffsets state

/-- A growth that is not refused fails no slot. -/
theorem Orderly.sound_advance (orderly : state.Orderly) {place : Nat} {span : Span} {slot : Slot}
    (firing : state.Firing place span slot) (clean : state.problems = []) :
    ∀ other ∈ (state.advance place span (slot.grow span (state.distance span.field))).slots,
      other.error = none := by
  intro other member
  rcases List.mem_or_eq_of_mem_set member with old | rfl
  · exact orderly.sound clean other old
  · rw [Slot.grow_error]
    exact firing.sound

/-- A growth that is not refused fails no span. -/
theorem Orderly.kept_advance (orderly : state.Orderly) (place : Nat) (span : Span)
    (outcome : Outcome) (clean : state.problems = []) :
    ∀ other ∈ (state.advance place span outcome).spans, other.state ≠ .failed := by
  intro other member
  rcases List.mem_or_eq_of_mem_set member with old | rfl
  · exact orderly.kept clean other old
  · cases outcome <;> simp [Outcome.spanState]

/-- Relaxations stay orderly, whatever they do. -/
theorem orderly_preserved : Preserved Orderly where
  work := by
    intro state next place grew orderly effect
    have coherent := coherent_preserved.work orderly.coherent effect
    cases effect with
    | idle => exact orderly
    | failed =>
      exact ⟨coherent, by simp [fail, dropSpans], by simp [fail, dropSpans],
        by simp [fail, dropSpans]⟩
    | shrank =>
      exact ⟨coherent, by simp [collapse, dropSpans, breakOff],
        by simp [collapse, dropSpans, breakOff], by simp [collapse, dropSpans, breakOff]⟩
    | kept firing grown granted same =>
      subst grown
      refine ⟨coherent, orderly.kept_advance place _ _, orderly.sound_advance firing,
        fun clean => ?_⟩
      obtain ⟨found, foundAt, ruleless, _⟩ :=
        orderly.coherent.watched _ (List.mem_of_getElem? firing.spanAt)
      rw [firing.slotAt, Option.some.injEq] at foundAt
      subst foundAt
      exact (orderly.contiguous clean).set firing.slotAt (by simpa using ruleless) (by simp) same
    | grew firing grown granted more =>
      subst grown
      exact ⟨coherent,
        fun clean => orderly.kept_advance place _ _ (List.append_eq_nil_iff.mp clean).1,
        sound_assignOffsets (orderly.sound_advance firing), fun _ => contiguous_assignOffsets _⟩
  pass := fun orderly =>
    ⟨coherent_preserved.pass orderly.coherent, orderly.kept, orderly.sound, orderly.contiguous⟩
  stop := fun error orderly =>
    ⟨coherent_preserved.stop error orderly.coherent, by simp [breakOff], by simp [breakOff],
      by simp [breakOff]⟩
  assign := fun orderly => orderly_assignOffsets orderly.coherent orderly.kept orderly.sound

/-- Assigning the offsets of contiguous slots anew changes nothing at all. -/
theorem assignOffsets_eq_self
    (contiguous : Contiguous 0 state.slots state.size) : state.assignOffsets = state := by
  simp [assignOffsets, contiguous.placeSlots_eq]

end Assembler.Relaxation
