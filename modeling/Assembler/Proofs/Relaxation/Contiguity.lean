import Assembler.Relaxation
import Mathlib.Data.UInt

/-!
# Contiguous slots

`Contiguous` says that slots stand one behind the other and that every padding has the length its
rule gives at its own offset. `placeSlots` makes slots contiguous (`contiguous_placeSlots`) and
leaves contiguous slots alone (`Contiguous.placeSlots_eq`), so that placing twice is placing once.
-/

namespace Assembler

variable {slot : Slot} {offset size : UInt64} {slots : List Slot}

/-- The number of copies is the same number as an unsigned word. -/
theorem toNat_toUInt64 {copies : Int64} (positive : 0 ≤ copies.toInt) :
    copies.toUInt64.toNat = copies.toInt.toNat := by
  have signed : copies.toInt = (copies.toUInt64.toNat : Int).bmod (2 ^ 64) :=
    BitVec.toInt_eq_toNat_bmod _
  have word := copies.toUInt64.toNat_lt
  rw [Int.bmod_def] at signed
  split at signed <;> omega

/-- A length below half of the words is the same number as a signed word. -/
theorem toInt_toInt64 {length : UInt64} (small : length.toNat < 2 ^ 63) :
    length.toInt64.toInt = length.toNat :=
  BitVec.toInt_eq_toNat_of_lt (by simpa using (by omega : 2 * length.toNat < 2 ^ 64))

namespace Slot

@[simp] theorem placeAt_offset (slot : Slot) (offset : UInt64) :
    (slot.placeAt offset).offset = offset := by
  unfold placeAt
  repeat' split
  all_goals rfl

@[simp] theorem placeAt_copies (slot : Slot) (offset : UInt64) :
    (slot.placeAt offset).copies = slot.copies := by
  unfold placeAt
  repeat' split
  all_goals rfl

@[simp] theorem placeAt_near (slot : Slot) (offset : UInt64) :
    (slot.placeAt offset).near = slot.near := by
  unfold placeAt
  repeat' split
  all_goals rfl

@[simp] theorem placeAt_setter (slot : Slot) (offset : UInt64) :
    (slot.placeAt offset).setter = slot.setter := by
  unfold placeAt
  repeat' split
  all_goals rfl

/-- A slot without a rule for its length only moves. -/
theorem placeAt_of_setter_none (ruleless : slot.setter = none) (offset : UInt64) :
    slot.placeAt offset = { slot with offset } := by
  unfold placeAt
  simp [ruleless]

/-- Padding that was placed without a failure has the length that its rule gives there. -/
theorem placeAt_pad {setter : Setter} (sound : (slot.placeAt offset).error = none)
    (rule : slot.setter = some setter) :
    setter.pad offset = .ok (slot.placeAt offset).length := by
  unfold placeAt at sound ⊢
  cases known : slot.error with
  | some error => simp [known] at sound
  | none =>
    cases padded : setter.pad offset with
    | ok length => simp [rule, padded]
    | error error => simp [known, rule, padded] at sound

end Slot

/-- Slots that stand one behind the other from an offset up to an end. Padding that has not failed
is as long as its rule says. -/
def Contiguous : UInt64 → List Slot → UInt64 → Prop
  | offset, [], size => size = offset
  | offset, slot :: rest, size =>
    slot.offset = offset ∧
      (∀ setter, slot.error = none → slot.setter = some setter →
        setter.pad offset = .ok slot.length) ∧
      Contiguous slot.next rest size

/-- Slots that are placed lie one behind the other. -/
theorem contiguous_placeSlots (offset : UInt64) (slots : List Slot) :
    Contiguous offset (placeSlots offset slots).1 (placeSlots offset slots).2 := by
  induction slots generalizing offset with
  | nil => rfl
  | cons slot rest ih =>
    refine ⟨slot.placeAt_offset offset, ?_, ih (slot.placeAt offset).next⟩
    intro setter sound rule
    rw [Slot.placeAt_setter] at rule
    exact Slot.placeAt_pad sound rule

/-- A contiguous slot is where placing it would put it. -/
theorem Slot.placeAt_self (padded : ∀ setter, slot.error = none → slot.setter = some setter →
      setter.pad slot.offset = .ok slot.length) : slot.placeAt slot.offset = slot := by
  unfold placeAt
  cases known : slot.error with
  | some error => simp [← known]
  | none =>
    cases rule : slot.setter with
    | none => simp [← known, ← rule]
    | some setter => simp [padded setter known rule, ← known, ← rule]

/-- Slots that lie one behind the other stay in place. -/
theorem Contiguous.placeSlots_eq
    (contiguous : Contiguous offset slots size) : placeSlots offset slots = (slots, size) := by
  induction slots generalizing offset with
  | nil =>
    have reached : size = offset := contiguous
    rw [reached, placeSlots]
  | cons slot rest ih =>
    obtain ⟨rfl, padded, others⟩ := contiguous
    rw [placeSlots, Slot.placeAt_self padded, ih others]

/-- Exchanging a slot without a rule for one of the same offset and total keeps slots
contiguous. -/
theorem Contiguous.set (contiguous : Contiguous offset slots size) {index : Nat} {grown : Slot}
    (found : slots[index]? = some slot) (ruleless : grown.setter = none)
    (sameOffset : grown.offset = slot.offset) (sameTotal : grown.total = slot.total) :
    Contiguous offset (slots.set index grown) size := by
  induction slots generalizing offset index with
  | nil => simp at found
  | cons first rest ih =>
    obtain ⟨atOffset, padded, others⟩ := contiguous
    cases index with
    | zero =>
      simp only [List.getElem?_cons_zero, Option.some.injEq] at found
      subst found
      refine ⟨sameOffset.trans atOffset, fun setter _ rule => ?_, ?_⟩
      · simp [ruleless] at rule
      · rwa [Slot.next, sameOffset, sameTotal]
    | succ index => exact ⟨atOffset, padded, ih others (by simpa using found)⟩

@[simp] theorem length_placeSlots (offset : UInt64) (slots : List Slot) :
    (placeSlots offset slots).1.length = slots.length := by
  induction slots generalizing offset with
  | nil => rfl
  | cons slot rest ih => simp [placeSlots, ih]

/-- Placing slots places each of them. -/
theorem placeSlots_getElem? (offset : UInt64) (slots : List Slot) (index : Nat) :
    ∃ place, (placeSlots offset slots).1[index]? = (slots[index]?).map (·.placeAt place) := by
  induction slots generalizing offset index with
  | nil => exact ⟨0, by simp [placeSlots]⟩
  | cons slot rest ih =>
    cases index with
    | zero => exact ⟨offset, by simp [placeSlots]⟩
    | succ index => simpa [placeSlots] using ih (slot.placeAt offset).next index

/-- In contiguous slots, padding that has not failed has the length that its rule gives at its
offset. -/
theorem Contiguous.pad (contiguous : Contiguous offset slots size) (member : slot ∈ slots)
    {setter : Setter} (sound : slot.error = none) (rule : slot.setter = some setter) :
    setter.pad slot.offset = .ok slot.length := by
  induction slots generalizing offset with
  | nil => simp at member
  | cons first rest ih =>
    obtain ⟨atOffset, padded, others⟩ := contiguous
    rcases List.mem_cons.mp member with rfl | later
    · rw [atOffset]
      exact padded setter sound rule
    · exact ih others later

/-- In contiguous slots, the offset of a slot is the total of those before it. -/
theorem Contiguous.offset_eq (contiguous : Contiguous offset slots size) {index : Nat}
    (found : slots[index]? = some slot) :
    slot.offset = offset + ((slots.take index).map Slot.total).sum := by
  induction slots generalizing offset index with
  | nil => simp at found
  | cons first rest ih =>
    obtain ⟨atOffset, _, others⟩ := contiguous
    cases index with
    | zero =>
      simp only [List.getElem?_cons_zero, Option.some.injEq] at found
      simp [← found, atOffset]
    | succ index =>
      rw [ih others (by simpa using found), Slot.next, atOffset]
      simp [UInt64.add_assoc]

/-- The end of contiguous slots is the total of all of them. -/
theorem Contiguous.size_eq (contiguous : Contiguous offset slots size) :
    size = offset + (slots.map Slot.total).sum := by
  induction slots generalizing offset with
  | nil =>
    have reached : size = offset := contiguous
    simp [reached]
  | cons first rest ih =>
    obtain ⟨atOffset, _, others⟩ := contiguous
    rw [ih others, Slot.next, atOffset]
    simp [UInt64.add_assoc]

/-- A problem of placing slots is the error that a slot without one got. -/
theorem mem_placementProblems {before after : List Slot} {problem : LayoutProblem} :
    problem ∈ placementProblems before after ↔
      ∃ (index : Nat) (old new : Slot) (error : Error), before[index]? = some old ∧
        after[index]? = some new ∧ old.error = none ∧ new.error = some error ∧
        problem = { index := some index, error } := by
  simp only [placementProblems, List.mem_filterMap, Prod.exists, List.mem_zipIdx_iff_getElem?,
    List.getElem?_zip_eq_some]
  constructor
  · rintro ⟨old, new, index, ⟨oldAt, newAt⟩, found⟩
    cases sound : old.error with
    | some error => simp [sound] at found
    | none =>
      simp only [sound, Option.isNone_none, if_true, Option.map_eq_some_iff] at found
      obtain ⟨error, failed, rfl⟩ := found
      exact ⟨index, old, new, error, oldAt, newAt, sound, failed, rfl⟩
  · rintro ⟨index, old, new, error, oldAt, newAt, sound, failed, rfl⟩
    exact ⟨old, new, index, ⟨oldAt, newAt⟩, by simp [sound, failed]⟩

/-- No slot fails when it is placed, exactly if no slot without an error gets one. -/
theorem placementProblems_eq_nil_iff {before after : List Slot} :
    placementProblems before after = [] ↔
      ∀ (index : Nat) (old new : Slot), before[index]? = some old → after[index]? = some new →
        old.error = none → new.error = none := by
  rw [List.eq_nil_iff_forall_not_mem]
  constructor
  · intro quiet index old new foundOld foundNew sound
    by_contra failed
    obtain ⟨error, known⟩ := Option.ne_none_iff_exists'.mp failed
    exact quiet _ (mem_placementProblems.mpr
      ⟨index, old, new, error, foundOld, foundNew, sound, known, rfl⟩)
  · intro kept problem member
    obtain ⟨index, old, new, error, foundOld, foundNew, sound, failed, _⟩ :=
      mem_placementProblems.mp member
    rw [kept index old new foundOld foundNew sound] at failed
    cases failed

/-- Slots that stay as they are have no new failure. -/
@[simp] theorem placementProblems_self (slots : List Slot) :
    placementProblems slots slots = [] := by
  rw [placementProblems_eq_nil_iff]
  intro index old new foundOld foundNew sound
  rw [foundOld, Option.some.injEq] at foundNew
  rwa [← foundNew]

end Assembler
