import Assembler.Proofs.Relaxation.Coherence
import Mathlib.Data.List.Forall2

/-!
# Slots that do not move back

The end of padding is monotone in its offset (`Setter.pad_mono`), so what follows padding never
moves back when the padding moves on. `Packed` says of slots that none of them would move back if
they were placed anew. Growing and failing keep it, though nothing moves then, and placing moves on
and keeps it, too (`Packed.le_placeSlots`, `packed_placeSlots`).
-/

namespace Assembler

variable {error : Error} {span : Span} {bound : Nat}

variable {offset : UInt64} {setter : Setter} {slot : Slot} {index : Nat}

/-- The padding from an offset up to a multiple of a boundary. -/
theorem padding_properties (offset : Nat) {boundary : Nat} (positive : 0 < boundary) :
    (boundary - offset % boundary) % boundary < boundary ∧
      boundary ∣ offset + (boundary - offset % boundary) % boundary := by
  refine ⟨Nat.mod_lt _ positive, ?_⟩
  have within := Nat.mod_lt offset positive
  have split := Nat.div_add_mod offset boundary
  rcases Nat.eq_zero_or_pos (offset % boundary) with aligned | misaligned
  · rw [aligned, Nat.sub_zero, Nat.mod_self, Nat.add_zero]
    exact Nat.dvd_of_mod_eq_zero aligned
  · rw [Nat.mod_eq_of_lt (by omega)]
    refine ⟨offset / boundary + 1, ?_⟩
    rw [Nat.mul_succ]
    omega

/-- Two multiples of a boundary that differ are at least a boundary apart. -/
theorem add_le_of_dvd {boundary low high : Nat} (lowMultiple : boundary ∣ low)
    (highMultiple : boundary ∣ high) (less : low < high) : low + boundary ≤ high := by
  have apart := Nat.le_of_dvd (by omega) (Nat.dvd_sub highMultiple lowMultiple)
  omega

namespace Setter

/-- A rule that gives every offset a length: a boundary is not zero. -/
def Proper : Setter → Prop
  | .align boundary _ => 0 < boundary.toNat
  | .origin _ => True

/-- The padding of an alignment in natural numbers: up to the boundary, or none when that is beyond
the limit. -/
theorem pad_align {boundary maxSkip length : UInt64} (positive : 0 < boundary.toNat)
    (padded : (Setter.align boundary maxSkip).pad offset = .ok length) :
    let whole := (boundary.toNat - offset.toNat % boundary.toNat) % boundary.toNat
    length.toNat = 0 ∧ maxSkip.toNat ≠ 0 ∧ maxSkip.toNat < whole ∨
      length.toNat = whole ∧ (maxSkip.toNat = 0 ∨ whole ≤ maxSkip.toNat) := by
  intro whole
  have within : offset % boundary ≤ boundary := by
    rw [UInt64.le_iff_toNat_le, UInt64.toNat_mod]
    exact (Nat.mod_lt _ positive).le
  have same : ((boundary - offset % boundary) % boundary).toNat = whole := by
    rw [UInt64.toNat_mod, UInt64.toNat_sub_of_le _ _ within, UInt64.toNat_mod]
  have none : maxSkip = 0 ↔ maxSkip.toNat = 0 := UInt64.toNat_inj.symm
  simp only [pad, Bool.and_eq_true, decide_eq_true_eq, UInt64.lt_iff_toNat_lt, same, ne_eq, none]
    at padded
  split at padded
  case isTrue skipped =>
    cases padded
    exact .inl ⟨rfl, skipped⟩
  case isFalse kept =>
    cases padded
    exact .inr ⟨same, by omega⟩

/-- The end of padding is monotone in its offset. -/
theorem pad_mono (proper : setter.Proper) {low high before after : UInt64} (le : low ≤ high)
    (atLow : setter.pad low = .ok before) (atHigh : setter.pad high = .ok after) :
    low.toNat + before.toNat ≤ high.toNat + after.toNat := by
  rw [UInt64.le_iff_toNat_le] at le
  cases setter with
  | align boundary maxSkip =>
    obtain ⟨lowWithin, lowMultiple⟩ := padding_properties low.toNat proper
    obtain ⟨highWithin, highMultiple⟩ := padding_properties high.toNat proper
    -- Without the limit the ends are the least multiples from the two offsets on.
    have ends := add_le_of_dvd highMultiple lowMultiple
    have limits := add_le_of_dvd lowMultiple highMultiple
    rcases pad_align proper atLow with skipped | padded <;>
      rcases pad_align proper atHigh with skippedHigh | paddedHigh <;> omega
  | origin start =>
    simp only [pad] at atLow atHigh
    split at atLow
    · cases atLow
    · split at atHigh
      · cases atHigh
      · rename_i lowBefore highBefore
        simp only [Except.ok.injEq] at atLow atHigh
        subst atLow atHigh
        rw [UInt64.toNat_sub_of_le _ _ (UInt64.not_lt.mp lowBefore),
          UInt64.toNat_sub_of_le _ _ (UInt64.not_lt.mp highBefore)]
        rw [UInt64.not_lt, UInt64.le_iff_toNat_le] at lowBefore highBefore
        omega

/-- Only an origin that lies behind the offset cannot be reached. -/
theorem pad_error (failed : setter.pad offset = .error error) :
    ∃ start, setter = .origin start ∧ start < offset ∧ error = .originOverlap offset start := by
  cases setter with
  | align boundary maxSkip =>
    simp only [pad] at failed
    split at failed <;> cases failed
  | origin start =>
    simp only [pad] at failed
    split at failed
    · rename_i behind
      cases failed
      exact ⟨start, rfl, behind, rfl⟩
    · cases failed

/-- Padding that reached its end from a lower offset ended before the offset from which it cannot
reach it. -/
theorem pad_end_le_of_error {low high before : UInt64}
    (atLow : setter.pad low = .ok before) (atHigh : setter.pad high = .error error) :
    low.toNat + before.toNat ≤ high.toNat := by
  obtain ⟨start, rfl, behind, _⟩ := pad_error atHigh
  simp only [pad] at atLow
  split at atLow
  · cases atLow
  · rename_i reached
    rw [UInt64.not_lt] at reached
    simp only [Except.ok.injEq] at atLow
    subst atLow
    rw [UInt64.toNat_sub_of_le _ _ reached]
    rw [UInt64.le_iff_toNat_le] at reached
    rw [UInt64.lt_iff_toNat_lt] at behind
    omega

end Setter

namespace Slot

/-- The number of bytes of all copies, in unbounded numbers. -/
def extent (slot : Slot) : Nat := slot.length.toNat * slot.copies.toInt.toNat

/-- What is so of every slot of a section: there are no negative numbers of copies, and padding
stands once, by a rule that gives every offset a length. -/
structure Proper (slot : Slot) : Prop where
  copies : 0 ≤ slot.copies.toInt
  once : slot.setter ≠ none → slot.copies = 1
  rule : ∀ setter, slot.setter = some setter → setter.Proper

/-- The end of a slot does not wrap. -/
theorem toNat_next (counted : 0 ≤ slot.copies.toInt)
    (bounded : slot.offset.toNat + slot.extent < 2 ^ 64) :
    slot.next.toNat = slot.offset.toNat + slot.extent := by
  have total : slot.total.toNat = slot.extent := by
    rw [total, UInt64.toNat_mul, toNat_toUInt64 counted]
    exact Nat.mod_eq_of_lt (by unfold extent at bounded; omega)
  rw [next, UInt64.toNat_add, total]
  exact Nat.mod_eq_of_lt bounded

/-- Placing a proper slot leaves it proper. -/
theorem Proper.placeAt (proper : slot.Proper) (offset : UInt64) :
    (slot.placeAt offset).Proper where
  copies := by simpa using proper.copies
  once := by simpa using proper.once
  rule := by simpa using proper.rule

/-- Padding that has not failed has the length that its rule gives at its offset. -/
def Padded (slot : Slot) : Prop :=
  ∀ setter, slot.error = none → slot.setter = some setter → setter.pad slot.offset = .ok slot.length

/-- A slot that is placed is padded up to its rule. -/
theorem padded_placeAt (slot : Slot) (offset : UInt64) : (slot.placeAt offset).Padded := by
  intro setter sound rule
  rw [placeAt_setter] at rule
  rw [placeAt_offset]
  exact placeAt_pad sound rule

/-- Padding stands once, so its extent is its length. -/
theorem Proper.extent_of_setter (proper : slot.Proper)
    (rule : slot.setter = some setter) : slot.extent = slot.length.toNat := by
  rw [extent, proper.once (by simp [rule])]
  exact Nat.mul_one _

/-- Placing a slot further on does not move its end back. -/
theorem Proper.end_mono (proper : slot.Proper) (padded : slot.Padded) (le : slot.offset ≤ offset) :
    slot.offset.toNat + slot.extent ≤ offset.toNat + (slot.placeAt offset).extent := by
  have placedProper := proper.placeAt offset
  have leNat := UInt64.le_iff_toNat_le.mp le
  cases rule : slot.setter with
  | none =>
    rw [placeAt_of_setter_none rule]
    exact Nat.add_le_add_right leNat _
  | some setter =>
    rw [proper.extent_of_setter rule,
      placedProper.extent_of_setter (slot.placeAt_setter offset ▸ rule)]
    cases known : slot.error with
    | some error =>
      have moved : slot.placeAt offset = { slot with offset } := by simp [Slot.placeAt, known]
      rw [moved]
      exact Nat.add_le_add_right leNat _
    | none =>
      have before := padded setter known rule
      cases after : setter.pad offset with
      | ok length =>
        have placed : (slot.placeAt offset).length = length := by
          simp [Slot.placeAt, known, rule, after]
        rw [placed]
        exact Setter.pad_mono (proper.rule setter rule) le before after
      | error error =>
        exact (Setter.pad_end_le_of_error before after).trans (Nat.le_add_right _ _)

/-- A slot that grows for a span gets no shorter and no fewer copies, if the span has seen the
copies there are and a near form is not the shorter one. -/
theorem extent_le_grow (counted : span.purpose = .copies → slot.copies = span.seen)
    (longer : ∀ near, span.purpose = .branch near → slot.length ≤ near)
    (distance : Option Int64) : slot.extent ≤ (slot.grow span distance).slot.extent := by
  unfold Slot.extent
  cases purpose : span.purpose with
  | copies =>
    rw [(grow_form (by rw [purpose, Purpose.id])).1]
    apply Nat.mul_le_mul_left
    simp only [grow, purpose]
    split
    · exact Nat.le_refl _
    · rename_i count
      split
      · exact Nat.le_refl _
      · split
        · exact Nat.le_refl _
        · rename_i notLess
          rw [Int64.not_lt, Int64.le_iff_toInt_le, ← counted purpose] at notLess
          exact Int.toNat_le_toNat notLess
  | leb128 signed =>
    rw [grow_copies (by rw [purpose, Purpose.id])]
    apply Nat.mul_le_mul_right
    rw [← UInt64.le_iff_toNat_le]
    have longerOf : ∀ length : UInt64, slot.length ≤
        (if slot.length < length then length else slot.length) := by
      intro length
      split
      case isTrue less => exact UInt64.le_of_lt less
      case isFalse => exact UInt64.le_refl _
    simp only [grow, purpose]
    split <;> exact longerOf _
  | branch near =>
    rw [grow_copies (by rw [purpose, Purpose.id])]
    apply Nat.mul_le_mul_right
    simp only [grow, purpose]
    exact UInt64.le_iff_toNat_le.mp (longer near purpose)

/-- A growth is never refused because of an origin. -/
theorem grow_error_ne {distance : Option Int64} {reached start : UInt64} :
    (slot.grow span distance).error ≠ some (.originOverlap reached start) := by
  unfold Slot.grow
  repeat' split
  all_goals simp [Outcome.error]

/-- A slot without a rule stays proper when it grows. -/
theorem Proper.grow (proper : slot.Proper) (ruleless : slot.setter = none) (span : Span)
    (distance : Option Int64) : (slot.grow span distance).slot.Proper where
  copies := by
    cases purpose : span.purpose with
    | copies =>
      simp only [Slot.grow, purpose]
      split
      · exact proper.copies
      · split
        · exact proper.copies
        · rename_i notNegative
          split
          · exact proper.copies
          · rwa [Int64.not_lt, Int64.le_iff_toInt_le] at notNegative
    | leb128 | branch =>
      rw [grow_copies (by rw [purpose, Purpose.id])]
      exact proper.copies
  once := by simp [ruleless]
  rule := by simp [ruleless]

end Slot

/-- Slots whose ends, in unbounded numbers, do not lie before the offsets of the next: if they were
placed anew from the bound on, none of them would move back. -/
def Packed : Nat → List Slot → UInt64 → Prop
  | bound, [], size => size.toNat ≤ bound
  | bound, slot :: rest, size =>
    slot.offset.toNat ≤ bound ∧ slot.Padded ∧ Packed (slot.offset.toNat + slot.extent) rest size

/-- A larger bound holds as well. -/
theorem Packed.mono {low high : Nat} {slots : List Slot} {size : UInt64}
    (packed : Packed low slots size) (le : low ≤ high) : Packed high slots size := by
  cases slots with
  | nil => exact Nat.le_trans packed le
  | cons slot rest => exact ⟨packed.1.trans le, packed.2⟩

/-- A slot may grow in a packed section. -/
theorem Packed.set {slots : List Slot} {size : UInt64}
    (packed : Packed bound slots size) {grown : Slot} (found : slots[index]? = some slot)
    (ruleless : grown.setter = none) (sameOffset : grown.offset = slot.offset)
    (longer : slot.extent ≤ grown.extent) :
    Packed bound (slots.set index grown) size := by
  induction slots generalizing bound index with
  | nil => simp at found
  | cons first rest ih =>
    obtain ⟨within, padded, others⟩ := packed
    cases index with
    | zero =>
      simp only [List.getElem?_cons_zero, Option.some.injEq] at found
      subst found
      refine ⟨sameOffset ▸ within, fun setter _ rule => by simp [ruleless] at rule, ?_⟩
      rw [sameOffset]
      exact others.mono (Nat.add_le_add_left longer _)
    | succ index => exact ⟨within, padded, ih others (by simpa using found)⟩

/-- A slot may fail in a packed section. -/
theorem Packed.fail {slots : List Slot} {size : UInt64}
    (packed : Packed bound slots size) (index : Nat) (error : Error) :
    Packed bound (slots.modify index fun slot => { slot with error := some error }) size := by
  induction slots generalizing bound index with
  | nil => simpa using packed
  | cons first rest ih =>
    obtain ⟨within, padded, others⟩ := packed
    cases index with
    | zero => exact ⟨within, fun setter sound _ => by simp at sound, others⟩
    | succ index => exact ⟨within, padded, ih others index⟩

/-- A slot that is placed ends behind its bytes. -/
theorem Slot.Proper.toNat_next_placeAt {slot : Slot} (proper : slot.Proper) (offset : UInt64)
    (bounded : offset.toNat + (slot.placeAt offset).extent < 2 ^ 63) :
    (slot.placeAt offset).next.toNat = offset.toNat + (slot.placeAt offset).extent := by
  rw [Slot.toNat_next (proper.placeAt offset).copies (by rw [Slot.placeAt_offset]; omega),
    Slot.placeAt_offset]

/-- Slots that were placed are packed, as long as they end below the bound of words. -/
theorem packed_placeSlots {slots : List Slot} (proper : ∀ slot ∈ slots, slot.Proper)
    (offset : UInt64)
    (bounded : offset.toNat + ((placeSlots offset slots).1.map Slot.extent).sum < 2 ^ 63) :
    Packed offset.toNat (placeSlots offset slots).1 (placeSlots offset slots).2 := by
  induction slots generalizing offset with
  | nil => exact Nat.le_refl _
  | cons slot rest ih =>
    obtain ⟨properSlot, properRest⟩ := List.forall_mem_cons.mp proper
    simp only [placeSlots, List.map_cons, List.sum_cons] at bounded ⊢
    have next := properSlot.toNat_next_placeAt offset (by omega)
    have others := ih properRest (slot.placeAt offset).next (by omega)
    refine ⟨by rw [Slot.placeAt_offset], slot.padded_placeAt offset, ?_⟩
    rwa [Slot.placeAt_offset, ← next]

/-- Placing packed slots anew moves none of them back. -/
theorem Packed.le_placeSlots {slots : List Slot} {size : UInt64}
    (packed : Packed bound slots size) (proper : ∀ slot ∈ slots, slot.Proper) (offset : UInt64)
    (reached : bound ≤ offset.toNat)
    (bounded : offset.toNat + ((placeSlots offset slots).1.map Slot.extent).sum < 2 ^ 63) :
    List.Forall₂ (· ≤ ·) (slots.map Slot.offset) ((placeSlots offset slots).1.map Slot.offset) ∧
      size ≤ (placeSlots offset slots).2 := by
  induction slots generalizing bound offset with
  | nil => exact ⟨.nil, UInt64.le_iff_toNat_le.mpr (Nat.le_trans packed reached)⟩
  | cons slot rest ih =>
    obtain ⟨within, padded, others⟩ := packed
    obtain ⟨properSlot, properRest⟩ := List.forall_mem_cons.mp proper
    simp only [placeSlots, List.map_cons, List.sum_cons] at bounded ⊢
    have next := properSlot.toNat_next_placeAt offset (by omega)
    have le : slot.offset ≤ offset := UInt64.le_iff_toNat_le.mpr (within.trans reached)
    have ends := properSlot.end_mono padded le
    obtain ⟨offsets, sizes⟩ :=
      ih others properRest (slot.placeAt offset).next (by omega) (by omega)
    exact ⟨.cons (by rwa [Slot.placeAt_offset]) offsets, sizes⟩

/-- A slot that could not reach its origin lies behind it. -/
def Slot.Overlapped (slot : Slot) : Prop :=
  ∀ reached start, slot.error = some (.originOverlap reached start) →
    slot.setter = some (.origin start) ∧ start < slot.offset

/-- A slot that fails when it is placed lies behind its origin, and so does one that failed before
and is placed behind it again. -/
theorem Slot.overlapped_placeAt
    (before : ∀ reached start, slot.error = some (.originOverlap reached start) →
      slot.setter = some (.origin start) ∧ start < offset) : (slot.placeAt offset).Overlapped := by
  intro reached start failed
  rw [placeAt_offset, placeAt_setter]
  cases known : slot.error with
  | some error =>
    have kept : (slot.placeAt offset).error = slot.error := by simp [placeAt, known]
    exact before reached start (kept ▸ failed)
  | none =>
    cases rule : slot.setter with
    | none => simp [placeAt, known, rule] at failed
    | some setter =>
      cases padded : setter.pad offset with
      | ok length => simp [placeAt, known, rule, padded] at failed
      | error error =>
        simp only [placeAt, known, rule, padded, Option.some.injEq] at failed
        obtain ⟨origin, rfl, behind, same⟩ := Setter.pad_error padded
        rw [same, Error.originOverlap.injEq] at failed
        exact failed.2 ▸ ⟨rfl, behind⟩

/-- What holds of the slots of a section from its first offsets on. -/
structure Grounded (slots : List Slot) (size : UInt64) : Prop where
  packed : Packed 0 slots size
  proper : ∀ slot ∈ slots, slot.Proper
  overlapped : ∀ slot ∈ slots, slot.Overlapped

/-- The members of a list with one element changed are old, or made from an old one. -/
theorem mem_modify {α : Type} {list : List α} {change : α → α} {new : α}
    (member : new ∈ list.modify index change) : new ∈ list ∨ ∃ old ∈ list, change old = new := by
  obtain ⟨place, found⟩ := List.mem_iff_getElem?.mp member
  rw [List.getElem?_modify] at found
  obtain ⟨old, oldAt, rfl⟩ := Option.map_eq_some_iff.mp found
  have oldMember := List.mem_of_getElem? oldAt
  split
  · exact .inr ⟨old, oldMember, rfl⟩
  · exact .inl oldMember

namespace Grounded

variable {slots : List Slot} {size : UInt64}

/-- A growth leaves slots grounded. -/
theorem grow (grounded : Grounded slots size) (found : slots[index]? = some slot)
    (ruleless : slot.setter = none) {distance : Option Int64}
    (longer : slot.extent ≤ (slot.grow span distance).slot.extent) :
    Grounded (slots.set index (slot.grow span distance).slot) size where
  packed := grounded.packed.set found (by simpa using ruleless) (by simp) longer
  proper := by
    intro other member
    rcases List.mem_or_eq_of_mem_set member with old | rfl
    · exact grounded.proper other old
    · exact (grounded.proper slot (List.mem_of_getElem? found)).grow ruleless span distance
  overlapped := by
    intro other member
    rcases List.mem_or_eq_of_mem_set member with old | rfl
    · exact grounded.overlapped other old
    · intro reached start failed
      simpa using grounded.overlapped slot (List.mem_of_getElem? found) reached start
        (by simpa using failed)

/-- A failure other than that of an origin keeps slots grounded. -/
theorem fail (grounded : Grounded slots size) (index : Nat)
    (other : ∀ reached start, error ≠ .originOverlap reached start) :
    Grounded (slots.modify index fun slot => { slot with error := some error }) size where
  packed := grounded.packed.fail index error
  proper := by
    intro slot member
    rcases mem_modify member with old | ⟨old, oldMember, rfl⟩
    · exact grounded.proper slot old
    · exact ⟨(grounded.proper old oldMember).copies, (grounded.proper old oldMember).once,
        (grounded.proper old oldMember).rule⟩
  overlapped := by
    intro slot member
    rcases mem_modify member with old | ⟨old, oldMember, rfl⟩
    · exact grounded.overlapped slot old
    · intro reached start failed
      exact absurd (Option.some.inj failed) (other reached start)

/-- A slot that was placed is an old one at its new offset. -/
theorem mem_placeSlots {slots : List Slot} {new : Slot}
    (found : (placeSlots offset slots).1[index]? = some new) :
    ∃ old, slots[index]? = some old ∧ old.placeAt new.offset = new := by
  obtain ⟨place, placed⟩ := placeSlots_getElem? offset slots index
  rw [found] at placed
  obtain ⟨old, oldAt, rfl⟩ := Option.map_eq_some_iff.mp placed.symm
  exact ⟨old, oldAt, by rw [Slot.placeAt_offset]⟩

/-- Slots are grounded once they were placed, if no origin that failed before comes to lie before
its start. -/
theorem of_placeSlots (proper : ∀ slot ∈ slots, slot.Proper)
    (bounded : ((placeSlots 0 slots).1.map Slot.extent).sum < 2 ^ 63)
    (before : ∀ (index : Nat) (old new : Slot), slots[index]? = some old →
      (placeSlots 0 slots).1[index]? = some new → ∀ reached start,
      old.error = some (.originOverlap reached start) →
        old.setter = some (.origin start) ∧ start < new.offset) :
    Grounded (placeSlots 0 slots).1 (placeSlots 0 slots).2 where
  packed := packed_placeSlots proper 0 (by simpa using bounded)
  proper := by
    intro slot member
    obtain ⟨index, found⟩ := List.mem_iff_getElem?.mp member
    obtain ⟨old, oldAt, placed⟩ := mem_placeSlots found
    exact placed ▸ (proper old (List.mem_of_getElem? oldAt)).placeAt _
  overlapped := by
    intro slot member
    obtain ⟨index, found⟩ := List.mem_iff_getElem?.mp member
    obtain ⟨old, oldAt, placed⟩ := mem_placeSlots found
    exact placed ▸ Slot.overlapped_placeAt (before index old slot oldAt found)

/-- Placing grounded slots anew moves none of them back and keeps them grounded. -/
theorem place (grounded : Grounded slots size)
    (bounded : ((placeSlots 0 slots).1.map Slot.extent).sum < 2 ^ 63) :
    (List.Forall₂ (· ≤ ·) (slots.map Slot.offset) ((placeSlots 0 slots).1.map Slot.offset) ∧
      size ≤ (placeSlots 0 slots).2) ∧ Grounded (placeSlots 0 slots).1 (placeSlots 0 slots).2 := by
  have moved := grounded.packed.le_placeSlots grounded.proper 0 (Nat.zero_le _)
    (by simpa using bounded)
  refine ⟨moved, of_placeSlots grounded.proper bounded ?_⟩
  intro index old new oldAt newAt reached start failed
  obtain ⟨rule, behind⟩ := grounded.overlapped old (List.mem_of_getElem? oldAt) reached start failed
  have later : old.offset ≤ new.offset := by
    obtain ⟨oldRange, rfl⟩ := List.getElem?_eq_some_iff.mp oldAt
    obtain ⟨newRange, rfl⟩ := List.getElem?_eq_some_iff.mp newAt
    have step := moved.1.get (i := index) (by simpa using oldRange) (by simpa using newRange)
    rwa [List.get_eq_getElem, List.get_eq_getElem, List.getElem_map, List.getElem_map] at step
  exact ⟨rule, UInt64.lt_of_lt_of_le behind later⟩

end Grounded

end Assembler
