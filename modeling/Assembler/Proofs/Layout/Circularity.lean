import Assembler.Proofs.Relaxation.Weight

/-!
# Counts that depend on themselves

A count that is a distance is refused as circular if it has positions on both sides of its chunk. It
depends on the bytes of the chunk if the coefficients of the positions behind the chunk do not
cancel. `circular_repeat_refused` holds one against the other: coefficients that cancel behind the
chunk are refused for nothing, and those that cancel as words only are not refused where they should
be. Between the two, and for every plain distance, what is refused is what depends on itself.
-/

namespace Assembler

/-- Slots without rules for their lengths whose bytes words can count. -/
structure Unwrapped (slots : List Slot) : Prop where
  plain : ∀ slot ∈ slots, slot.Plain
  bounded : (slots.map Slot.extent).sum < 2 ^ 64

/-- Empty slots, and a last one that words can count. -/
theorem unwrapped_replicate (index : Nat) {last : Slot} (plain : last.Plain)
    (bounded : last.extent < 2 ^ 64) :
    Unwrapped (List.replicate index { length := 0 } ++ [last]) where
  plain := by
    intro slot member
    rcases List.mem_append.mp member with old | new
    · rw [List.eq_of_mem_replicate old]
      exact ⟨rfl, by decide⟩
    · rwa [List.mem_singleton.mp new]
  bounded := by
    have empty : Slot.extent { length := 0 } = 0 := rfl
    simpa [empty] using bounded

namespace Expr

variable {expr : Expr} {id index : Nat}

/-- What an expression measures in a section when its slots are placed one behind the other. -/
def measuredOver (expr : Expr) (id : Nat) (slots : List Slot) : Int :=
  (Relaxation.assignOffsets { home := id, slots, spans := [] }).exactValue { expr }

/-- An expression measures something else if one slot is exchanged and all others stay. -/
def DependsOn (expr : Expr) (id index : Nat) : Prop :=
  ∃ slots slot other, slots[index]? = some slot ∧ Unwrapped slots ∧
    Unwrapped (slots.set index other) ∧
    expr.measuredOver id (slots.set index other) ≠ expr.measuredOver id slots

/-- An expression has positions on both sides of a chunk. -/
def OnBothSides (expr : Expr) (index : Nat) : Prop :=
  (∃ location ∈ expr.places, location.index ≤ index) ∧
    ∃ location ∈ expr.places, index < location.index
deriving Decidable

section

variable (distance : expr.isDistance id = true)
  (labels : ∀ location ∈ expr.places, location.offset = 0)
include distance labels

/-- A distance between the starts of chunks is measured by the extents of the chunks. -/
theorem measuredOver_eq {slots : List Slot} (unwrapped : Unwrapped slots) :
    expr.measuredOver id slots = expr.value (placesAmong (extentsOf slots)) := by
  let state := Relaxation.assignOffsets { home := id, slots, spans := [] }
  have extents : state.slots.map Slot.extent = slots.map Slot.extent :=
    map_extent_placeSlots unwrapped.plain 0
  have standing : state.Standing (extentsOf slots) := by
    rw [← extentsOf_congr extents]
    exact (Relaxation.contiguous_assignOffsets _).standing (plain_placeSlots unwrapped.plain 0)
      (by rw [extents]; exact unwrapped.bounded)
  refine standing.exactValue_eq distance rfl rfl fun location member => ?_
  rw [labels location member, sum_extentsOf]
  exact Nat.lt_of_le_of_lt (take_sum_le _ _) unwrapped.bounded

/-- When one slot is exchanged, a distance changes by its weight there times the difference. -/
theorem measuredOver_set {slots : List Slot} {slot other : Slot}
    (slotAt : slots[index]? = some slot) (before : Unwrapped slots)
    (after : Unwrapped (slots.set index other)) :
    expr.measuredOver id (slots.set index other) =
      expr.measuredOver id slots +
        expr.weightBehind index * (other.extent - slot.extent : Int) := by
  have inRange := (List.getElem?_eq_some_iff.mp slotAt).1
  rw [measuredOver_eq distance labels after, measuredOver_eq distance labels before,
    extentsOf_set inRange, value_update, extentsOf_of_getElem? slotAt]

/-- A distance depends on a chunk exactly if the coefficients behind the chunk do not cancel. -/
theorem dependsOn_iff :
    expr.DependsOn id index ↔ expr.weightBehind index ≠ 0 := by
  constructor
  · rintro ⟨slots, slot, other, slotAt, before, after, changes⟩ weightless
    rw [measuredOver_set distance labels slotAt before after, weightless, Int.zero_mul,
      Int.add_zero] at changes
    exact changes rfl
  · intro weight
    let empty : Slot := { length := 0 }
    let filled : Slot := { length := 1 }
    have exchanged : (List.replicate index empty ++ [empty]).set index filled =
        List.replicate index empty ++ [filled] := by simp
    have emptyAt : (List.replicate index empty ++ [empty])[index]? = some empty := by simp
    have before : Unwrapped (List.replicate index empty ++ [empty]) :=
      unwrapped_replicate index ⟨rfl, by decide⟩ (by decide)
    have after : Unwrapped ((List.replicate index empty ++ [empty]).set index filled) := by
      rw [exchanged]
      exact unwrapped_replicate index ⟨rfl, by decide⟩ (by decide)
    refine ⟨_, _, _, emptyAt, before, after, ?_⟩
    have one : (filled.extent - empty.extent : Int) = 1 := by decide
    rw [measuredOver_set distance labels emptyAt before after, one, Int.mul_one]
    omega

end

/-- Every term of a distance is a position of its section. -/
theorem exists_place (distance : expr.isDistance id = true) {term : Term}
    (member : term ∈ expr.terms) : ∃ location, term.base = .place location := by
  simp only [isDistance, Bool.and_eq_true, List.all_eq_true] at distance
  have inside := distance.1 term member
  cases base : term.base with
  | place location => exact ⟨location, rfl⟩
  | symbol number => simp [base] at inside

/-- A distance between the starts of chunks encloses a chunk exactly if it has positions on both
sides of it. -/
theorem encloses_iff (distance : expr.isDistance id = true)
    (labels : ∀ location ∈ expr.places, location.offset = 0) :
    expr.encloses index = true ↔ expr.OnBothSides index := by
  have reach : ∀ {term : Term}, term ∈ expr.terms →
      ∃ location ∈ expr.places, term.reach = (location.index, location.index) := by
    intro term member
    obtain ⟨location, base⟩ := exists_place distance member
    have placed : location ∈ expr.places := mem_places.mpr ⟨term, member, base⟩
    exact ⟨location, placed, by simp [Term.reach, base, labels location placed]⟩
  have reached : ∀ {location : Location}, location ∈ expr.places →
      (location.index, location.index) ∈ expr.terms.map Term.reach := by
    intro location placed
    obtain ⟨term, member, base⟩ := mem_places.mp placed
    refine List.mem_map.mpr ⟨term, member, ?_⟩
    simp [Term.reach, base, labels location placed]
  simp only [encloses, Bool.and_eq_true, List.any_eq_true, decide_eq_true_eq]
  refine and_congr ?_ ?_
  · constructor
    · rintro ⟨_, among, before⟩
      obtain ⟨term, member, rfl⟩ := List.mem_map.mp among
      obtain ⟨location, placed, same⟩ := reach member
      exact ⟨location, placed, by simpa [same] using before⟩
    · rintro ⟨location, placed, before⟩
      exact ⟨_, reached placed, before⟩
  · constructor
    · rintro ⟨_, among, behind⟩
      obtain ⟨term, member, rfl⟩ := List.mem_map.mp among
      obtain ⟨location, placed, same⟩ := reach member
      exact ⟨location, placed, by simpa [same] using behind⟩
    · rintro ⟨location, placed, behind⟩
      exact ⟨_, reached placed, behind⟩

/-- A chunk that counts has a position behind it. -/
theorem exists_behind_of_weight (weight : expr.weightBehind index ≠ 0) :
    ∃ location ∈ expr.places, index < location.index := by
  by_contra nothing
  apply weight
  have none : (expr.terms.filter fun term => term.base.isBehind index) = [] := by
    rw [List.filter_eq_nil_iff]
    intro term member behind
    cases base : term.base with
    | place location =>
      rw [base] at behind
      exact nothing ⟨location, mem_places.mpr ⟨term, member, base⟩, by
        simpa [Base.isBehind] using behind⟩
    | symbol number => simp [base, Base.isBehind] at behind
  rw [weightBehind, none]
  rfl

/-- A chunk before all positions counts as often as all coefficients together. -/
theorem weightBehind_eq_coefficientSum (distance : expr.isDistance id = true)
    (behind : ∀ location ∈ expr.places, index < location.index) :
    expr.weightBehind index = expr.coefficientSum := by
  have all : (expr.terms.filter fun term => term.base.isBehind index) = expr.terms := by
    rw [List.filter_eq_self]
    intro term member
    obtain ⟨location, base⟩ := exists_place distance member
    rw [base]
    simpa [Base.isBehind] using behind location (mem_places.mpr ⟨term, member, base⟩)
  rw [weightBehind, all, coefficientSum]

end Expr

/-- The repeat count of a chunk expands to a distance between the starts of chunks. -/
structure Chunk.CountsDistance (chunk : Chunk) (table : SymbolTable) (id : Nat) (expanded : Expr) :
    Prop where
  unruled : chunk.kind.role ≠ .offsetSetter
  given : ∃ count, chunk.repeats = some count ∧ table.expand count = .ok expanded
  deferred : expanded.isConstant = false
  distance : expanded.isDistance id = true
  labels : ∀ location ∈ expanded.places, location.offset = 0

/-- The count of a chunk is refused as circular. -/
def Chunk.Refused (chunk : Chunk) (table : SymbolTable) (id index : Nat) : Prop :=
  chunk.initialCopies table id index = .error (.problem .circularRepeat)

/-- How the verdict on a count that is a distance relates to what the count depends on. -/
structure Chunk.CircularVerdict (chunk : Chunk) (table : SymbolTable) (id index : Nat)
    (count : Expr) : Prop where
  /-- A count with positions on both sides of its chunk is refused. -/
  refused_iff : chunk.Refused table id index ↔ count.OnBothSides index
  /-- Every other count is watched. -/
  watched : ¬ chunk.Refused table id index → chunk.initialCopies table id index =
    .ok (0, some { index, purpose := .copies, field := { expr := count, line := chunk.line } })
  /-- When the slot of the chunk is exchanged, the count changes by its weight there. -/
  exchanged : ∀ slots slot other, slots[index]? = some slot → Unwrapped slots →
    Unwrapped (slots.set index other) →
    count.measuredOver id (slots.set index other) =
      count.measuredOver id slots + count.weightBehind index * (other.extent - slot.extent : Int)
  dependsOn_iff : count.DependsOn id index ↔ count.weightBehind index ≠ 0
  /-- What is refused for nothing. -/
  needless_iff : chunk.Refused table id index ∧ ¬ count.DependsOn id index ↔
    count.OnBothSides index ∧ count.weightBehind index = 0
  /-- What is not refused though it should be. -/
  missed_iff : ¬ chunk.Refused table id index ∧ count.DependsOn id index ↔
    (∀ location ∈ count.places, index < location.index) ∧ count.coefficientSum ≠ 0
  /-- Coefficients that cancel as numbers and have one sign behind the chunk are judged right. -/
  right : count.coefficientSum = 0 →
    ((∀ term ∈ count.terms, term.base.isBehind index = true → 0 < term.coefficient) ∨
      ∀ term ∈ count.terms, term.base.isBehind index = true → term.coefficient < 0) →
    (chunk.Refused table id index ↔ count.DependsOn id index)

/-- Whether a count that is a distance is watched or refused is a matter of its positions. -/
theorem Chunk.CountsDistance.initialCopies_eq {chunk : Chunk} {table : SymbolTable} {id : Nat}
    {expanded : Expr} (counts : chunk.CountsDistance table id expanded) (index : Nat) :
    chunk.initialCopies table id index =
      if expanded.encloses index then .error (.problem .circularRepeat)
      else .ok (0,
        some { index, purpose := .copies, field := { expr := expanded, line := chunk.line } }) := by
  obtain ⟨count, repeats, expands⟩ := counts.given
  simp only [initialCopies, repeats, counts.unruled, expands, counts.deferred, counts.distance,
    Halt.wrap, bind, Except.bind, if_false, Bool.not_true, Bool.false_eq_true]
  rfl

/-- A count that is a distance between the starts of chunks is refused as circular exactly if it has
positions on both sides of its chunk, and depends on the chunk exactly if the coefficients of the
positions behind do not cancel. So it is refused although it does not depend on the chunk if the
positions lie on both sides and cancel behind, and it is not refused although it does depend on it
if all positions lie behind and their coefficients cancel as words only. If the coefficients cancel
as numbers and those behind the chunk have one sign, as in the distance between two labels, then
what is refused is what depends on itself. -/
theorem circular_repeat_refused {chunk : Chunk} {table : SymbolTable} {id : Nat} {expanded : Expr}
    (counts : chunk.CountsDistance table id expanded) (index : Nat) :
    chunk.CircularVerdict table id index expanded := by
  have enclosed : expanded.encloses index = true ↔ expanded.OnBothSides index :=
    Expr.encloses_iff counts.distance counts.labels
  have depends : expanded.DependsOn id index ↔ expanded.weightBehind index ≠ 0 :=
    Expr.dependsOn_iff counts.distance counts.labels
  have refusal : chunk.Refused table id index ↔ expanded.OnBothSides index := by
    rw [← enclosed, Chunk.Refused, counts.initialCopies_eq]
    split <;> simp_all
  have missed : ¬ chunk.Refused table id index ∧ expanded.DependsOn id index ↔
      (∀ location ∈ expanded.places, index < location.index) ∧ expanded.coefficientSum ≠ 0 := by
    rw [refusal, depends]
    constructor
    · rintro ⟨oneSide, weight⟩
      have all : ∀ location ∈ expanded.places, index < location.index := by
        intro location placed
        by_contra before
        exact oneSide ⟨⟨location, placed, by omega⟩, Expr.exists_behind_of_weight weight⟩
      exact ⟨all, Expr.weightBehind_eq_coefficientSum counts.distance all ▸ weight⟩
    · rintro ⟨all, sum⟩
      refine ⟨?_, Expr.weightBehind_eq_coefficientSum counts.distance all ▸ sum⟩
      rintro ⟨⟨location, placed, before⟩, _⟩
      have behind := all location placed
      omega
  refine ⟨refusal, fun accepted => ?_, fun slots slot other slotAt before after =>
    Expr.measuredOver_set counts.distance counts.labels slotAt before after, depends, ?_, missed,
    ?_⟩
  · rw [counts.initialCopies_eq,
      if_neg fun encloses => accepted (refusal.mpr (enclosed.mp encloses))]
  · rw [refusal, depends, not_not]
  · intro cancels oneSided
    constructor
    · intro isRefused
      obtain ⟨_, location, placed, behind⟩ := refusal.mp isRefused
      obtain ⟨term, member, base⟩ := Expr.mem_places.mp placed
      rw [depends]
      exact Expr.weightBehind_ne_zero oneSided
        ⟨term, member, by rw [base]; simpa [Base.isBehind] using behind⟩
    · intro dependent
      by_contra accepted
      exact (missed.mp ⟨accepted, dependent⟩).2 cancels

/-- As many bytes as there are in the chunk before and the chunk behind. -/
def neighbourCount : Expr where
  terms :=
    [⟨-1, .place ⟨0, 0, 0⟩⟩, ⟨1, .place ⟨0, 1, 0⟩⟩, ⟨-1, .place ⟨0, 2, 0⟩⟩, ⟨1, .place ⟨0, 3, 0⟩⟩]

/-- Coefficients that cancel as words, at two positions. -/
def wrappedCount : Expr where
  terms := [⟨-9223372036854775808, .place ⟨0, 1, 0⟩⟩, ⟨-9223372036854775808, .place ⟨0, 2, 0⟩⟩]

/-- A byte with a repeat count. -/
def countedByte (count : Expr) : Chunk where
  body := .data [.bytes [0x90]]
  repeats := some count

/-- The bytes of the neighbours are refused as circular although they do not depend on the chunk
between them, and the coefficients that wrap are not refused although they do. -/
theorem neighbourCount_refused :
    (countedByte neighbourCount).initialCopies {} 0 1 = .error (.problem .circularRepeat) ∧
      ¬ neighbourCount.DependsOn 0 1 ∧
      neighbourCount.measuredOver 0 [{ length := 3 }, { length := 1 }, { length := 2 }] = 5 ∧
      (countedByte wrappedCount).initialCopies {} 0 0 ≠ .error (.problem .circularRepeat) ∧
      wrappedCount.DependsOn 0 0 := by
  have neighbours : (countedByte neighbourCount).CountsDistance {} 0 neighbourCount :=
    ⟨by decide, ⟨_, rfl, by decide +kernel⟩, by decide, by decide, by decide⟩
  have wrapped : (countedByte wrappedCount).CountsDistance {} 0 wrappedCount :=
    ⟨by decide, ⟨_, rfl, by decide +kernel⟩, by decide, by decide, by decide⟩
  obtain ⟨refused, independent⟩ :=
    (circular_repeat_refused neighbours 1).needless_iff.mpr ⟨by decide, by decide⟩
  exact ⟨refused, independent, by decide,
    (circular_repeat_refused wrapped 0).missed_iff.mpr ⟨by decide, by decide⟩⟩

end Assembler
