import Assembler.Relaxation
import Mathlib.Data.UInt

/-!
# Distances

Whether a field is a distance inside a section depends on the field alone (`Field.isDistanceIn`);
its exact value depends on the offsets (`Relaxation.exactValue`). A relaxation finds the distance
exactly when the value is a signed word (`distance_eq_some_iff`).
-/

namespace Assembler

variable {first second : Relaxation}

/-- The bounds of the signed words. -/
theorem isWord_iff {value : Int} : isWord value = true ↔ -2 ^ 63 ≤ value ∧ value < 2 ^ 63 := by
  simp only [isWord, Bool.and_eq_true, decide_eq_true_eq, Int64.toInt_minValue,
    Int64.toInt_maxValue]
  omega

/-- An integer is a signed word exactly if the word made from it stands for it. -/
theorem isWord_iff_toInt_ofInt {value : Int} :
    isWord value = true ↔ (Int64.ofInt value).toInt = value := by
  rw [isWord_iff]
  constructor
  · rintro ⟨low, high⟩
    exact Int64.toInt_ofInt_of_le low high
  · intro same
    have low := (Int64.ofInt value).le_toInt
    have high := (Int64.ofInt value).toInt_lt
    omega

/-- The value of a signed word is a signed word. -/
theorem isWord_toInt (word : Int64) : isWord word.toInt = true := by
  rw [isWord_iff_toInt_ofInt, Int64.ofInt_toInt]

/-- Whether a field is a distance inside a section: it has no symbol, all its positions are in the
section and their coefficients cancel. -/
def Field.isDistanceIn (field : Field) (home : Nat) : Bool :=
  match field.positions with
  | none => false
  | some positions =>
    (positions.all fun position => position.2.sectionId == home) &&
      (positions.map Prod.fst).sum == 0

namespace Relaxation

/-- The value of a field at the current offsets, in unbounded integers. -/
def exactValue (state : Relaxation) (field : Field) : Int :=
  field.expr.constant + ((field.positions.getD []).map fun (coefficient, location) =>
    coefficient.toInt * (offsetAmong state.slots state.size location).toNat).sum

/-- The distance of a field is its exact value, if the field is a distance and the value a word. -/
theorem distance_eq (state : Relaxation) (field : Field) :
    state.distance field =
      if field.isDistanceIn state.home && isWord (state.exactValue field) then
        some (Int64.ofInt (state.exactValue field))
      else none := by
  unfold distance Field.isDistanceIn exactValue
  cases field.positions with
  | none => rfl
  | some positions =>
    simp only [Option.bind_eq_bind, Option.bind_some, Option.getD_some, List.sum_eq_foldr]
    split
    · next inside => simp [inside]
    · next outside => simp [outside]

/-- A distance is found exactly when the field is a distance and has that value. -/
theorem distance_eq_some_iff {state : Relaxation} {field : Field} {value : Int64} :
    state.distance field = some value ↔
      field.isDistanceIn state.home = true ∧ state.exactValue field = value.toInt := by
  rw [distance_eq]
  split
  case isTrue found =>
    obtain ⟨inside, word⟩ := Bool.and_eq_true_iff.mp found
    rw [isWord_iff_toInt_ofInt] at word
    constructor
    · intro same
      rw [Option.some.injEq] at same
      exact ⟨inside, by rw [← same, word]⟩
    · rintro ⟨_, same⟩
      rw [same, Int64.ofInt_toInt]
  case isFalse missing =>
    constructor
    · intro impossible
      cases impossible
    · rintro ⟨inside, same⟩
      rw [inside, same, isWord_toInt] at missing
      exact absurd rfl missing

/-- A field that is a distance has none exactly when its value is no signed word. -/
theorem distance_isSome_iff {state : Relaxation} {field : Field}
    (inside : field.isDistanceIn state.home = true) :
    (state.distance field).isSome = true ↔ isWord (state.exactValue field) = true := by
  rw [distance_eq, inside]
  cases isWord (state.exactValue field) <;> simp

/-- Every position has the same offset in two states. -/
def SameOffsets (first second : Relaxation) : Prop :=
  second.home = first.home ∧
    ∀ location, offsetAmong second.slots second.size location =
      offsetAmong first.slots first.size location

/-- Distances depend on offsets only. -/
theorem SameOffsets.distance_eq (same : SameOffsets first second)
    (field : Field) : second.distance field = first.distance field := by
  unfold distance
  simp only [same.1, same.2]

/-- The exact value of a field depends on offsets only. -/
theorem SameOffsets.exactValue_eq (same : SameOffsets first second)
    (field : Field) : second.exactValue field = first.exactValue field := by
  unfold exactValue
  simp only [same.2]

/-- States whose slots have the same offsets in the same order, and the same size, agree on every
position. -/
theorem sameOffsets_of_map (home : second.home = first.home)
    (slots : second.slots.map Slot.offset = first.slots.map Slot.offset)
    (size : second.size = first.size) : SameOffsets first second := by
  refine ⟨home, fun location => ?_⟩
  have located := congrArg (fun offsets => offsets[location.index]?) slots
  simp only [List.getElem?_map] at located
  unfold offsetAmong
  cases here : second.slots[location.index]? <;> cases there : first.slots[location.index]? <;>
    simp_all

end Relaxation

end Assembler
