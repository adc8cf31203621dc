import Assembler.Proofs.Layout.Consistency
import Assembler.Proofs.Layout.Measures
import Mathlib.Algebra.Order.BigOperators.Group.List
import Mathlib.Algebra.Order.Group.Nat

/-!
# The extent of chunks

A layout counts in words. The length of a chunk that was laid out without an error is the word of
the number of its bytes (`Section.Clean.length_eq`), and its number of copies is not negative. In a
section that is not too large nothing wraps, so that offsets and the size are sums of natural
numbers (`toNat_offset`, `toNat_next`, `toNat_size`).
-/

namespace Assembler

/-- The number of bytes of one copy. Where the layout counts them in words, the number need not be
one. -/
def Chunk.exactLength (chunk : Chunk) : Nat :=
  match chunk.body with
  | .data items => (items.map DataItem.exactSize).sum
  | .leb128 integer =>
    if integer.value.isConstant then Leb128.size integer.value.expr.constant integer.signed
    else chunk.slot.length.toNat
  | .instruction code => code.bytes.length
  | .branch jump => jump.exactLength chunk.slot.near
  | .reserve .. | .binary _ | .align _ | .org _ => chunk.slot.length.toNat

/-- How often a chunk is emitted. -/
def Chunk.count (chunk : Chunk) : Nat := chunk.slot.copies.toInt.toNat

/-- The length of all copies together, which need not be a word. -/
def Chunk.extent (chunk : Chunk) : Nat := chunk.slot.length.toNat * chunk.count

/-- The number of bytes of a section, which need not be a word. -/
def Section.exactSize (sect : Section) : Nat :=
  (sect.chunks.map fun chunk => chunk.exactLength * chunk.count).sum

namespace Origin

variable {table : SymbolTable} {id index : Nat} {sect : Section} {chunk : Chunk}

variable (origin : Origin table id index sect chunk)
include origin

/-- The value of an integer has no symbol, and nothing is subtracted from it. -/
theorem integer_value {integer : VariableInteger} (isInteger : chunk.body = .leb128 integer) :
    integer.value.symbol = none ∧ integer.value.origin = none := by
  have settled := origin.settled
  rw [origin.body_eq (by simp [isInteger, Body.kind]), isInteger] at settled
  obtain ⟨source, _, settles⟩ := Body.settle_leb128 settled
  exact VariableInteger.settle_ok settles

/-- The sequences of an alignment have been checked. -/
theorem align_filling {padding : Align} (isAlign : chunk.body = .align padding) :
    checkCodeFill padding.codeFill = none := by
  obtain ⟨setter, _, rule⟩ := origin.align isAlign
  obtain ⟨_, _, _, _, _, checked, _⟩ := Align.setter_ok rule
  exact checked

/-- The operands of an instruction have been checked. -/
theorem instruction_operands {code : Instruction} (isInstruction : chunk.body = .instruction code) :
    checkOperands code.name code.bytes.length 0 code.operands = none := by
  have measured := origin.measured
  rw [origin.body_eq (by simp [isInstruction, Body.kind]), isInstruction] at measured
  generalize origin.measure = measure at measured
  cases measured with
  | instruction inside => exact inside

/-- The span of a repeat count watches the number of copies only. -/
theorem purpose_countSpan {span : Span} (member : span ∈ origin.countSpan.toList) :
    span.purpose.id = 0 := by
  have counted := origin.counted
  rw [Option.mem_toList.mp member] at counted
  exact (initialCopies_span counted id { copies := origin.copies } rfl).2.2.1

/-- The span of a body watches its length only. -/
theorem purpose_span {span : Span} (member : span ∈ origin.measure.span.toList) :
    span.purpose.id = 1 :=
  (origin.measured.span_holds (Option.mem_toList.mp member) id
    { length := origin.measure.length, near := origin.measure.near } rfl rfl).2.2.1

/-- A number of copies that nothing watches is the one that the layout started from. -/
theorem copies_eq (unwatched : origin.countSpan = none) : chunk.slot.copies = origin.copies := by
  refine origin.evolves.copies ?_
  rintro ⟨span, member, purpose⟩
  rw [unwatched, Option.toList_none, List.nil_append] at member
  have form := origin.purpose_span member
  rw [purpose] at form
  cases form

/-- A body that watches nothing and has no rule for its length keeps the length of its measure. -/
theorem length_eq_measure (unwatched : origin.measure.span = none)
    (ruleless : origin.measure.setter = none) :
    chunk.slot.length = origin.measure.length := by
  have others : ∀ purpose : Purpose, purpose.id = 1 →
      ¬ ∃ span ∈ origin.countSpan.toList ++ origin.measure.span.toList, span.purpose = purpose := by
    rintro _ form ⟨span, member, rfl⟩
    rw [unwatched, Option.toList_none, List.append_nil] at member
    rw [origin.purpose_countSpan member] at form
    cases form
  exact origin.evolves.length (fun signed => others (.leb128 signed) rfl)
    (.inl fun length => others (.branch length) rfl) ruleless

/-- The length of a chunk that is no branch is the word of the number of its bytes. -/
theorem length_eq (other : ∀ jump, chunk.body ≠ .branch jump) :
    chunk.slot.length = UInt64.ofNat chunk.exactLength := by
  have kept := origin.length_eq_measure
  have measured := origin.measured
  have same : chunk.body = origin.measure.body := congrArg Chunk.body origin.recorded
  unfold Chunk.exactLength
  rw [same] at other ⊢
  generalize origin.body = body at measured
  generalize origin.measure = measure at measured kept other ⊢
  cases measured with
  | data sized =>
    dsimp only
    rw [kept rfl rfl, measureItems_ok sized]
  | constant known =>
    dsimp only
    rw [if_pos known]
    exact kept rfl rfl
  | deferred unknown =>
    dsimp only
    rw [if_neg (by simp [unknown]), UInt64.ofNat_toNat]
  | instruction => exact kept rfl rfl
  | branch chosen => exact absurd (Branch.measure_ok chosen).2.2.1 (other _)
  | reserve | binary | align | org => exact (UInt64.ofNat_toNat).symm

/-- A part of given bytes ends inside them. -/
theorem binary_window {part : Binary} (isPart : chunk.body = .binary part) :
    chunk.slot.length.toNat ≤ part.data.length - part.skip := by
  have same : chunk.body = origin.measure.body := congrArg Chunk.body origin.recorded
  have measured := origin.measured
  have kept := origin.length_eq_measure
  rw [isPart] at same
  generalize origin.body = body at measured
  generalize origin.measure = measure at measured kept same
  cases measured with
  | binary window =>
    rw [Body.binary.injEq] at same
    have inside := Binary.window_ok window
    rw [kept rfl rfl, same, UInt64.toNat_ofNat']
    exact Nat.le_trans (Nat.mod_le _ _) inside
  | branch chosen =>
    rw [(Branch.measure_ok chosen).2.2.1] at same
    cases same
  | data | constant | deferred | reserve | align | org | instruction => cases same

/-- A body that watches nothing keeps the form it was measured in. -/
theorem near_eq_measure (unwatched : origin.measure.span = none) :
    chunk.slot.near = origin.measure.near := by
  refine origin.evolves.near fun length => ?_
  rintro ⟨span, member, purpose⟩
  rw [unwatched, Option.toList_none, List.append_nil] at member
  have count := origin.purpose_countSpan member
  rw [purpose] at count
  cases count

/-- A branch has the measure of its form. -/
theorem branch {jump : Branch} (isBranch : chunk.body = .branch jump) :
    jump.measure index origin.source.repeats.isSome origin.copies = .ok origin.measure := by
  have measured := origin.measured
  rw [origin.body_eq (by simp [isBranch, Body.kind]), isBranch] at measured
  generalize origin.measure = measure at measured ⊢
  cases measured with
  | branch chosen => exact chosen

end Origin

/-- A sum of words that does not wrap is the sum of their values. -/
theorem toNat_sum {words : List UInt64} (small : (words.map UInt64.toNat).sum < 2 ^ 64) :
    words.sum.toNat = (words.map UInt64.toNat).sum := by
  induction words with
  | nil => rfl
  | cons word rest ih =>
    rw [List.map_cons, List.sum_cons] at small
    rw [List.sum_cons, UInt64.toNat_add, ih (by omega), List.map_cons, List.sum_cons]
    exact Nat.mod_eq_of_lt small

namespace Section.Clean

variable {sect : Section} {table : SymbolTable} {id index : Nat} {chunk : Chunk}

section

variable (clean : sect.Clean table id)
include clean

/-- A branch has the length of the form that it is in. -/
theorem branch_length (chunkAt : sect.chunks[index]? = some chunk) {jump : Branch}
    (isBranch : chunk.body = .branch jump) :
    chunk.slot.length = jump.formLength chunk.slot.near := by
  obtain ⟨origin⟩ := clean.origin chunkAt
  obtain ⟨_, _, _, ruleless, chosen⟩ := Branch.measure_ok (origin.branch isBranch)
  rcases chosen with ⟨near, length, unwatched⟩ | ⟨short, length, _, fixed | ⟨_, _, watched⟩⟩
  · rw [origin.length_eq_measure unwatched ruleless, origin.near_eq_measure unwatched, near, length]
    rfl
  · rw [origin.length_eq_measure fixed.2 ruleless, origin.near_eq_measure fixed.2, short, length]
    rfl
  · have member := List.mem_append_right origin.countSpan.toList (Option.mem_toList.mpr watched)
    obtain ⟨final, finalMember, holds, purpose, _⟩ := clean.watcher chunkAt origin member rfl
    unfold Span.Holds at holds
    cases state : final.state with
    | failed => exact absurd state (clean.orderly.kept rfl final finalMember)
    | retired =>
      simp only [state, purpose] at holds
      rw [holds.1, holds.2]
      rfl
    | active =>
      -- The span has not fired, so the length is still the one of the short form.
      simp only [state, purpose] at holds
      have kept := origin.evolves.length ?_ (.inr holds) ruleless
      · rw [holds, kept, length]
        rfl
      · rintro signed ⟨span, spanMember, leb128⟩
        rcases List.mem_append.mp spanMember with count | form
        · have watchesCopies := origin.purpose_countSpan count
          rw [leb128] at watchesCopies
          cases watchesCopies
        · rw [watched, Option.toList_some, List.mem_singleton] at form
          rw [form] at leb128
          cases leb128

/-- The length of a chunk is the word of the number of its bytes. -/
theorem length_eq (chunkAt : sect.chunks[index]? = some chunk) :
    chunk.slot.length = UInt64.ofNat chunk.exactLength := by
  obtain ⟨origin⟩ := clean.origin chunkAt
  cases isBody : chunk.body with
  | branch jump =>
    rw [Chunk.exactLength, isBody, clean.branch_length chunkAt isBody]
    exact Branch.formLength_eq _ _
  | _ => exact origin.length_eq (by simp [isBody])

/-- A section that is not too large has no room for a chunk that is. -/
theorem toNat_length (bounded : sect.exactSize < 2 ^ 63)
    (chunkAt : sect.chunks[index]? = some chunk) (repeated : 0 < chunk.count) :
    chunk.slot.length.toNat = chunk.exactLength ∧ chunk.exactLength < 2 ^ 63 := by
  have once : chunk.exactLength ≤ chunk.exactLength * chunk.count :=
    Nat.le_mul_of_pos_right _ repeated
  have among : chunk.exactLength * chunk.count ≤ sect.exactSize :=
    List.single_le_sum (by simp) _ (List.mem_map_of_mem (List.mem_of_getElem? chunkAt))
  have small : chunk.exactLength < 2 ^ 63 := by omega
  refine ⟨?_, small⟩
  rw [clean.length_eq chunkAt, UInt64.toNat_ofNat_of_lt' (by simp only [UInt64.size]; omega)]

/-- No chunk of a clean section has a negative count. -/
theorem copies_nonneg (chunkAt : sect.chunks[index]? = some chunk) :
    0 ≤ chunk.slot.copies.toInt := by
  obtain ⟨origin⟩ := clean.origin chunkAt
  rcases initialCopies_ok origin.counted with ⟨_, once, unwatched⟩ | ⟨_, expanded, _, _, _, count⟩
  · rw [origin.copies_eq unwatched, once]
    decide
  · rcases count with ⟨_, word, positive, constant, unwatched⟩ | ⟨_, _, _, _, watched⟩
    · rw [origin.copies_eq unwatched, constant, isWord_iff_toInt_ofInt.mp word]
      exact positive
    · have member := List.mem_append_left origin.measure.span.toList (Option.mem_toList.mpr watched)
      obtain ⟨final, finalMember, holds, purpose, _⟩ := clean.watcher chunkAt origin member rfl
      have active := clean.active finalMember (by rw [purpose]; rfl)
      simp only [Span.Holds, active, purpose] at holds
      rw [holds.2.1]
      exact Int64.le_iff_toInt_le.mp holds.2.2

/-- The length of a chunk is at most the number of its bytes. -/
theorem extent_le (chunkAt : sect.chunks[index]? = some chunk) :
    chunk.extent ≤ chunk.exactLength * chunk.count := by
  refine Nat.mul_le_mul_right _ ?_
  rw [clean.length_eq chunkAt, UInt64.toNat_ofNat']
  exact Nat.mod_le _ _

/-- The chunks of a section together are at most as long as the section. -/
theorem sum_extent_le :
    (sect.chunks.map Chunk.extent).sum ≤ sect.exactSize := by
  refine List.sum_le_sum fun chunk member => ?_
  obtain ⟨index, chunkAt⟩ := List.mem_iff_getElem?.mp member
  exact clean.extent_le chunkAt

/-- The first chunks of a section are at most as long as the section. -/
theorem sum_take_le (count : Nat) :
    ((sect.chunks.take count).map Chunk.extent).sum ≤ sect.exactSize := by
  have part : ((sect.chunks.take count).map Chunk.extent).sum ≤
      (sect.chunks.map Chunk.extent).sum :=
    ((List.take_sublist count sect.chunks).map Chunk.extent).sum_le_sum (by simp)
  exact Nat.le_trans part clean.sum_extent_le

end

section

variable (clean : sect.Clean table id) (bounded : sect.exactSize < 2 ^ 63)
include clean bounded

/-- All copies of a chunk together have the length that their number and their length give. -/
theorem toNat_total (chunkAt : sect.chunks[index]? = some chunk) :
    chunk.slot.total.toNat = chunk.extent := by
  have among : chunk.extent ≤ (sect.chunks.map Chunk.extent).sum :=
    List.single_le_sum (by simp) _ (List.mem_map_of_mem (List.mem_of_getElem? chunkAt))
  have limit := clean.sum_extent_le
  rw [Slot.total, UInt64.toNat_mul, toNat_toUInt64 (clean.copies_nonneg chunkAt)]
  exact Nat.mod_eq_of_lt (by unfold Chunk.extent Chunk.count at *; omega)

/-- Slots count as many bytes as their chunks have. -/
theorem map_toNat_total (count : Nat) :
    ((sect.slots.take count).map Slot.total).map UInt64.toNat =
      (sect.chunks.take count).map Chunk.extent := by
  rw [Section.slots, ← List.map_take, List.map_map, List.map_map]
  refine List.map_congr_left fun chunk member => ?_
  obtain ⟨index, chunkAt⟩ := List.mem_iff_getElem?.mp (List.mem_of_mem_take member)
  exact clean.toNat_total bounded chunkAt

/-- The offset of a chunk is the length of the chunks before it. -/
theorem toNat_offset (chunkAt : sect.chunks[index]? = some chunk) :
    chunk.slot.offset.toNat = ((sect.chunks.take index).map Chunk.extent).sum := by
  have slotAt : (sect.relaxed id).slots[index]? = some chunk.slot := by
    simp [Section.relaxed, Section.slots, chunkAt]
  have below := clean.sum_take_le index
  rw [(clean.orderly.contiguous rfl).offset_eq slotAt, UInt64.zero_add, toNat_sum]
  · exact congrArg List.sum (clean.map_toNat_total bounded index)
  · change (((sect.slots.take index).map Slot.total).map UInt64.toNat).sum < 2 ^ 64
    rw [clean.map_toNat_total bounded index]
    omega

/-- The size of a section is the length of its chunks together. -/
theorem toNat_size : sect.size.toNat = (sect.chunks.map Chunk.extent).sum := by
  have total := clean.map_toNat_total bounded sect.chunks.length
  have below := clean.sum_extent_le
  rw [List.take_length] at total
  rw [Section.slots, ← List.map_take, List.take_length] at total
  have size : sect.size = 0 + (sect.slots.map Slot.total).sum :=
    (clean.orderly.contiguous rfl).size_eq
  rw [size, UInt64.zero_add, toNat_sum]
  · exact congrArg List.sum total
  · rw [Section.slots, total]
    omega

/-- Every chunk ends inside its section. -/
theorem offset_add_extent_le (chunkAt : sect.chunks[index]? = some chunk) :
    chunk.slot.offset.toNat + chunk.extent ≤ sect.exactSize := by
  have upTo := clean.sum_take_le (index + 1)
  rw [List.take_add_one, chunkAt, Option.toList_some, List.map_append, List.sum_append,
    ← clean.toNat_offset bounded chunkAt] at upTo
  simpa using upTo

/-- The end of a chunk is its offset and its length. -/
theorem toNat_next (chunkAt : sect.chunks[index]? = some chunk) :
    chunk.slot.next.toNat = chunk.slot.offset.toNat + chunk.extent := by
  have inside := clean.offset_add_extent_le bounded chunkAt
  rw [Slot.next, UInt64.toNat_add, clean.toNat_total bounded chunkAt]
  exact Nat.mod_eq_of_lt (by omega)

end

end Section.Clean

end Assembler
