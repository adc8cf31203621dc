import Assembler.Proofs.Layout.Extent
import Assembler.Proofs.Layout.Sections

/-!
# Sizes that are no words

A layout multiplies and adds in words, and looks for no overflow. A section that was laid out
without an error has the size that its chunks add up to, less a multiple of `2 ^ 64`; so the size is
right exactly if the section is no larger than a word can tell. Nothing is reported otherwise: a
section that nothing is watched in is laid out whatever its size (`size_wraps_unnoticed`).
-/

namespace Assembler

/-- The number of bytes of one copy, where reserved space is as long as its items together. -/
def Chunk.wholeLength (chunk : Chunk) (table : SymbolTable) : Nat :=
  match chunk.body with
  | .reserve count itemSize =>
    ((table.expand count).toOption.elim 0 fun expanded => expanded.constant.toNat) * itemSize.toNat
  | _ => chunk.exactLength

/-- The number of bytes of chunks with all their copies. -/
def wholeSize (table : SymbolTable) (chunks : List Chunk) : Nat :=
  (chunks.map fun chunk => chunk.wholeLength table * chunk.count).sum

namespace SymbolTable

variable {table : SymbolTable} {expr : Expr}

/-- A number expands to itself. -/
theorem expand_ofInt (table : SymbolTable) (constant : Int) :
    table.expand (.ofInt constant) = .ok (.ofInt constant) := by
  rw [expand, expandBelow]
  rfl

/-- A number that is a word is found as itself. -/
theorem constantWord_ofInt {constant : Int} (word : isWord constant = true) :
    table.constantWord (.ofInt constant) = .ok (Int64.ofInt constant) := by
  rw [constantWord, expand_ofInt]
  exact if_pos word

/-- A constant word is the constant that its expression expands to. -/
theorem constantWord_ok {value : Int64} (found : table.constantWord expr = .ok value) :
    ∃ expanded, table.expand expr = .ok expanded ∧ value.toInt = expanded.constant := by
  obtain ⟨expanded, expands, found⟩ := exists_of_bind_ok found
  split at found
  · next word =>
    cases found
    exact ⟨expanded, expands, isWord_iff_toInt_ofInt.mp (Bool.and_eq_true_iff.mp word).2⟩
  · cases found

/-- A quantity is the constant that its expression expands to, if that is not negative. -/
theorem naturalWord_ok {quantity : Quantity} {value : UInt64}
    (found : table.naturalWord quantity expr = .ok value) :
    ∃ expanded, table.expand expr = .ok expanded ∧ value.toNat = expanded.constant.toNat := by
  obtain ⟨word, wraps, found⟩ := exists_of_bind_ok found
  obtain ⟨expanded, expands, same⟩ := constantWord_ok (Halt.eq_ok_of_wrap wraps)
  split at found
  · cases found
  · next natural =>
    cases found
    refine ⟨expanded, expands, ?_⟩
    rw [Int64.lt_iff_toInt_lt, Int.not_lt] at natural
    rw [toNat_toUInt64 natural, same]

end SymbolTable

/-- A sum of words is the sum of their values, less what does not fit into a word. -/
theorem toNat_sum_mod (words : List UInt64) :
    words.sum.toNat = (words.map UInt64.toNat).sum % 2 ^ 64 := by
  induction words with
  | nil => rfl
  | cons word rest ih =>
    rw [List.sum_cons, UInt64.toNat_add, ih, List.map_cons, List.sum_cons, Nat.add_mod_mod]

namespace Section.Clean

variable {sect : Section} {table : SymbolTable} {id index : Nat} {chunk : Chunk}

variable (clean : sect.Clean table id)
include clean

/-- The length of a chunk is the word of the number of its bytes. -/
theorem length_eq_whole (chunkAt : sect.chunks[index]? = some chunk) :
    chunk.slot.length = UInt64.ofNat (chunk.wholeLength table) := by
  have length := clean.length_eq chunkAt
  unfold Chunk.wholeLength
  cases isBody : chunk.body with
  | reserve count itemSize =>
    obtain ⟨origin⟩ := clean.origin chunkAt
    have kept := origin.length_eq_measure
    have measured := origin.measured
    rw [origin.body_eq (by simp [isBody, Body.kind]), isBody] at measured
    generalize origin.measure = measure at measured kept
    cases measured with
    | reserve found =>
      obtain ⟨expanded, expands, items⟩ := SymbolTable.naturalWord_ok found
      dsimp only
      rw [kept rfl rfl, expands]
      simp [Except.toOption, ← items, UInt64.ofNat_mul]
  | _ => exact length

/-- The copies of a chunk are as long as they are together, less what does not fit into a word. -/
theorem toNat_total_mod (chunkAt : sect.chunks[index]? = some chunk) :
    chunk.slot.total.toNat = chunk.wholeLength table * chunk.count % 2 ^ 64 := by
  rw [Slot.total, UInt64.toNat_mul, toNat_toUInt64 (clean.copies_nonneg chunkAt),
    clean.length_eq_whole chunkAt, UInt64.toNat_ofNat', Nat.mod_mul_mod]
  rfl

/-- The first chunks of a section are as long as they are together, less what does not fit. -/
theorem toNat_sum_total (count : Nat) :
    ((sect.slots.take count).map Slot.total).sum.toNat =
      wholeSize table (sect.chunks.take count) % 2 ^ 64 := by
  have each : ((sect.slots.take count).map Slot.total).map UInt64.toNat =
      (sect.chunks.take count).map fun chunk => chunk.wholeLength table * chunk.count % 2 ^ 64 := by
    rw [Section.slots, ← List.map_take, List.map_map, List.map_map]
    refine List.map_congr_left fun chunk member => ?_
    obtain ⟨index, chunkAt⟩ := List.mem_iff_getElem?.mp (List.mem_of_mem_take member)
    exact clean.toNat_total_mod chunkAt
  rw [toNat_sum_mod, each, wholeSize,
    List.sum_nat_mod ((sect.chunks.take count).map fun chunk =>
      chunk.wholeLength table * chunk.count), List.map_map]
  rfl

/-- A section of which nothing was reported has the size of its chunks, less what does not fit into
a word. -/
theorem toNat_size_mod :
    sect.size.toNat = wholeSize table sect.chunks % 2 ^ 64 := by
  have all := clean.toNat_sum_total sect.chunks.length
  rw [List.take_length, List.take_of_length_le (by simp [Section.slots])] at all
  have size : sect.size = 0 + (sect.slots.map Slot.total).sum :=
    (clean.orderly.contiguous rfl).size_eq
  rw [size, UInt64.zero_add, all]

/-- A chunk stands behind those before it, less what does not fit into a word. -/
theorem toNat_offset_mod (chunkAt : sect.chunks[index]? = some chunk) :
    chunk.slot.offset.toNat = wholeSize table (sect.chunks.take index) % 2 ^ 64 := by
  have slotAt : (sect.relaxed id).slots[index]? = some chunk.slot := by
    simp [Section.relaxed, Section.slots, chunkAt]
  rw [(clean.orderly.contiguous rfl).offset_eq slotAt, UInt64.zero_add]
  exact clean.toNat_sum_total index

end Section.Clean

/-- A chunk whose length and whose number of copies are known at once: nothing is watched for it,
and it is no padding. -/
def Chunk.Fixed (chunk : Chunk) (table : SymbolTable) (id index : Nat) : Prop :=
  ∃ changed, chunk.prepare table id index = (changed, .ok []) ∧ changed.slot.setter = none

/-- A repeat count that expands to a constant is that constant. -/
theorem Chunk.initialCopies_constant {table : SymbolTable} {id index : Nat} {count : Expr}
    {chunk : Chunk} {copies : Int} (repeated : chunk.repeats = some count)
    (plain : chunk.kind.role ≠ .offsetSetter) (expands : table.expand count = .ok (.ofInt copies))
    (word : isWord copies = true) (natural : 0 ≤ copies) :
    chunk.initialCopies table id index = .ok (Int64.ofInt copies, none) := by
  simp only [initialCopies, repeated, if_neg plain, expands, Halt.wrap, bind, Except.bind,
    Expr.ofInt, Expr.isConstant, word, Bool.not_true, Bool.false_eq_true, if_false,
    List.isEmpty_nil, if_true, if_neg (Int.not_lt.mpr natural)]
  rfl

/-- Reserved space is fixed, whatever the number and the size of its items. -/
theorem fixed_reserve {count copies : Int} (word : isWord count = true) (natural : 0 ≤ count)
    (wordCopies : isWord copies = true) (naturalCopies : 0 ≤ copies) (itemSize : UInt64)
    (line : Int) (table : SymbolTable) (id index : Nat) :
    Chunk.Fixed
      { body := .reserve (.ofInt count) itemSize, repeats := some (.ofInt copies), line }
      table id index := by
  have items : table.naturalWord .reserveCount (.ofInt count) =
      .ok (Int64.ofInt count).toUInt64 := by
    have positive : ¬ Int64.ofInt count < 0 := by
      rw [Int64.lt_iff_toInt_lt, isWord_iff_toInt_ofInt.mp word]
      exact Int.not_lt.mpr natural
    simp [SymbolTable.naturalWord, SymbolTable.constantWord_ofInt word, Halt.wrap, positive, bind,
      Except.bind, pure, Except.pure]
  have counted := @Chunk.initialCopies_constant table id index _
    { body := .reserve (.ofInt count) itemSize, repeats := some (.ofInt copies), line } _ rfl
    (by simp [Chunk.kind, Body.kind, Kind.role]) (table.expand_ofInt copies) wordCopies
    naturalCopies
  simp only [Chunk.Fixed, Chunk.prepare, Body.settle, counted, Body.measure, items, bind,
    Except.bind, pure, Except.pure, Option.toList_none, List.append_nil]
  exact ⟨_, rfl, rfl⟩

namespace Relaxation

/-- A relaxation that has nothing to watch and nothing to pad, and has met no problem. -/
structure Idle (state : Relaxation) : Prop where
  spans : state.spans = []
  problems : state.problems = []
  slots : ∀ slot ∈ state.slots, slot.setter = none ∧ slot.error = none

/-- Slots without a rule are placed without a failure. -/
theorem Idle.assignOffsets {state : Relaxation} (idle : state.Idle) : state.assignOffsets.Idle where
  spans := idle.spans
  problems := by
    have quiet : placementProblems state.slots (placeSlots 0 state.slots).1 = [] := by
      rw [placementProblems_eq_nil_iff]
      intro index old new oldAt newAt sound
      obtain ⟨place, placed⟩ := placeSlots_getElem? 0 state.slots index
      rw [newAt, oldAt, Option.map_some, Option.some.injEq] at placed
      rw [placed, Slot.placeAt_of_setter_none (idle.slots old (List.mem_of_getElem? oldAt)).1]
      exact sound
    change state.problems ++ placementProblems state.slots (placeSlots 0 state.slots).1 = []
    rw [idle.problems, quiet, List.nil_append]
  slots := by
    intro slot member
    obtain ⟨index, slotAt⟩ := List.mem_iff_getElem?.mp member
    obtain ⟨place, placed⟩ := placeSlots_getElem? 0 state.slots index
    obtain ⟨old, oldAt, rfl⟩ := Option.map_eq_some_iff.mp (placed.symm.trans slotAt)
    obtain ⟨ruleless, sound⟩ := idle.slots old (List.mem_of_getElem? oldAt)
    rw [Slot.placeAt_of_setter_none ruleless]
    exact ⟨ruleless, sound⟩

/-- An idle relaxation ends at once, without a problem. -/
theorem Idle.settle {state : Relaxation} (idle : state.Idle) (maxPasses : Int) :
    (state.settle maxPasses).Idle := by
  have nothing : state.assignOffsets.collect [] = [] := by
    rw [collect_nil_iff, idle.assignOffsets.spans]
    intro span member
    cases member
  rw [settle_eq (runPasses_of_quiet nothing _ _ _), if_pos rfl]
  have begun : state.assignOffsets.beginPass.Idle :=
    ⟨idle.assignOffsets.spans, idle.assignOffsets.problems, idle.assignOffsets.slots⟩
  exact begun.assignOffsets

end Relaxation

/-- Fixed chunks are prepared without a problem. -/
theorem prepareAll_of_fixed {table : SymbolTable} {id start : Nat} {chunks : List Chunk}
    (fixed : ∀ (place : Nat) (chunk : Chunk), chunks[place]? = some chunk →
      chunk.Fixed table id (start + place)) :
    ∃ prepared, prepareAll table id start chunks = .ok prepared ∧
      (prepared.relaxation id).Idle := by
  induction chunks generalizing start with
  | nil =>
    refine ⟨{}, rfl, rfl, rfl, ?_⟩
    intro slot member
    cases member
  | cons first rest ih =>
    obtain ⟨changed, result, ruleless⟩ := fixed 0 first rfl
    obtain ⟨others, prepares, idle⟩ := @ih (start + 1) fun place chunk chunkAt => by
      have later := fixed (place + 1) chunk chunkAt
      rwa [← Nat.add_assoc, Nat.add_right_comm] at later
    obtain ⟨_, _, _, _, _, _, _, same, _⟩ := prepare_ok result
    refine ⟨{ others with chunks := changed :: others.chunks }, ?_, idle.spans, idle.problems, ?_⟩
    · rw [Nat.add_zero] at result
      rw [prepareAll, result, prepares]
      rfl
    · intro slot member
      rcases List.mem_cons.mp member with rfl | later
      · exact ⟨ruleless, by rw [same]⟩
      · exact idle.slots slot later

/-- A section of fixed chunks is laid out without an error, however large it is. -/
theorem layoutSection_of_fixed {object : Object} {id : Nat} {sect : Section}
    (found : object.sections[id]? = some sect)
    (fixed : ∀ (index : Nat) (chunk : Chunk), sect.chunks[index]? = some chunk →
      chunk.Fixed object.table id index) :
    ∃ laid layout, object.layoutSection id = .ok (laid, layout) ∧ layout.error = none := by
  obtain ⟨prepared, prepares, idle⟩ := @prepareAll_of_fixed object.table id 0 sect.chunks
    fun place chunk chunkAt => by
      rw [Nat.zero_add]
      exact fixed place chunk chunkAt
  have lays : sect.layout object.table object.maxPasses id =
      .ok (sect.recorded prepared ((prepared.relaxation id).settle object.maxPasses)) :=
    layout_eq_ok_iff.mpr ⟨prepared, prepares, rfl⟩
  rw [layoutSection_eq found, lays]
  exact ⟨_, _, rfl, recorded_error_eq_none_iff.mpr (idle.settle object.maxPasses).problems⟩

/-- A section that was laid out without an error has the size, and each of its chunks the offset,
that the chunks and their copies add up to, less a multiple of `2 ^ 64`. The size is right exactly
if it is a word, and no error says that it is not: fixed chunks are laid out whatever their size,
and reserved space is fixed whatever the number and the size of its items. -/
theorem size_wraps_unnoticed {object : Object} {id : Nat} {sect : Section}
    (found : object.sections[id]? = some sect) :
    (∀ (laid : Object) (layout : Layout), object.layoutSection id = .ok (laid, layout) →
      layout.error = none →
        laid.sections[id]? = some layout.sect ∧
        layout.sect.size.toNat = wholeSize object.table layout.sect.chunks % 2 ^ 64 ∧
        (layout.sect.size.toNat = wholeSize object.table layout.sect.chunks ↔
          wholeSize object.table layout.sect.chunks < 2 ^ 64) ∧
        ∀ (index : Nat) (chunk : Chunk), layout.sect.chunks[index]? = some chunk →
          chunk.slot.offset.toNat =
            wholeSize object.table (layout.sect.chunks.take index) % 2 ^ 64) ∧
    ((∀ (index : Nat) (chunk : Chunk), sect.chunks[index]? = some chunk →
        chunk.Fixed object.table id index) →
      ∃ laid layout, object.layoutSection id = .ok (laid, layout) ∧ layout.error = none) ∧
    ∀ (count copies : Int), isWord count = true → 0 ≤ count → isWord copies = true → 0 ≤ copies →
      ∀ (itemSize : UInt64) (line : Int) (index : Nat),
        Chunk.Fixed
          { body := .reserve (.ofInt count) itemSize, repeats := some (.ofInt copies), line }
          object.table id index := by
  refine ⟨?_, layoutSection_of_fixed found,
    fun count copies word natural wordCopies naturalCopies itemSize line index =>
      fixed_reserve word natural wordCopies naturalCopies itemSize line object.table id index⟩
  intro laid layout success silent
  obtain ⟨_, _, lays, recorded, _⟩ := layoutSection_ok success
  have clean := clean_layout lays silent
  have size := clean.toNat_size_mod
  refine ⟨recorded, size, ?_, fun index chunk => clean.toNat_offset_mod⟩
  rw [size]
  exact Nat.mod_eq_iff_lt (by decide)

/-- Reserved space of exactly `2 ^ 64` bytes, and a byte behind it. -/
def overflowing : Object where
  sections :=
    [{ name := ".bss"
       chunks :=
        [{ body := .reserve (.ofInt 4611686018427387904) 4, repeats := some (.ofInt 1) },
          { body := .data [.bytes [1]] }] }]

/-- The reserved space has vanished: the byte behind it is at the start of the section, and the
section has a size of one. -/
theorem overflowing_unnoticed :
    ∃ laid layout, ∃ datum : Chunk,
      overflowing.layoutSection 0 = .ok (laid, layout) ∧ layout.error = none ∧
        layout.sect.chunks[1]? = some datum ∧ datum.slot.offset = 0 ∧ layout.sect.size = 1 ∧
        wholeSize overflowing.table layout.sect.chunks = 2 ^ 64 + 1 ∧
        layout.sect.size.toNat = wholeSize overflowing.table layout.sect.chunks % 2 ^ 64 ∧
        layout.sect.size.toNat ≠ wholeSize overflowing.table layout.sect.chunks ∧
        datum.slot.offset.toNat =
          wholeSize overflowing.table (layout.sect.chunks.take 1) % 2 ^ 64 := by
  obtain ⟨sizes, lays, reserves⟩ := @size_wraps_unnoticed overflowing 0 _ rfl
  obtain ⟨laid, layout, success, silent⟩ := lays (by
    rintro (_ | _ | index) chunk ⟨⟩
    · exact reserves 4611686018427387904 1 (by decide) (by decide) (by decide) (by decide) 4 0 0
    · exact ⟨_, rfl, rfl⟩)
  obtain ⟨⟨_, _⟩, evaluated, ⟨datum, datumAt, offset⟩, size, whole⟩ :=
    exists_ok_of_any (overflowing.layoutSection 0)
      (p := fun result =>
        (∃ datum : Chunk, datum ∈ result.2.sect.chunks[1]? ∧ datum.slot.offset = 0) ∧
        result.2.sect.size = 1 ∧
        wholeSize overflowing.table result.2.sect.chunks = 2 ^ 64 + 1)
      (by decide +kernel)
  obtain ⟨rfl, rfl⟩ := Prod.mk.inj (Except.ok.inj (success.symm.trans evaluated))
  obtain ⟨_, wraps, fits, offsets⟩ := sizes laid layout success silent
  refine ⟨laid, layout, datum, success, silent, datumAt, offset, size, whole, wraps, ?_,
    offsets 1 datum datumAt⟩
  rw [Ne, fits, whole]
  decide

end Assembler
