import Assembler.Proofs.Format.Headers
import Assembler.Proofs.Format.Tightness
import Assembler.Proofs.Format.Writing

/-!
# Where execution starts

An executable without a named entry starts at its base address. Placing rounds every base up to the
alignment of the sections, the first one too, so the first section lies at the base address exactly
if that is aligned (`Elf.default_entry_iff`). An alignment up to that of the segment is always met.
Otherwise execution starts in the zeros that fill the segment up to the first section, as in
`tinyCode_enters_padding`.
-/

namespace Assembler

/-- A rounded address is the address itself exactly if that is aligned. -/
theorem roundUp_eq_self_iff {alignment address : Nat} (positive : 0 < alignment) :
    roundUp alignment address = address ↔ alignment ∣ address := by
  obtain ⟨⟨above, aligned⟩, least⟩ := isLeast_roundUp positive address
  constructor
  · exact fun same => same ▸ aligned
  · exact fun divides => Nat.le_antisymm (least ⟨Nat.le_refl _, divides⟩) above

namespace Object

variable {object placed : Object}

variable {alignment start : UInt64} {order : List Nat}
  (success : object.place start alignment = (placed, .ok order))
include success

/-- An object that is placed is placed from its start on. -/
theorem placeFrom_of_place :
    alignment.toNat.isPowerOfTwo ∧ order = object.placementOrder ∧
      placeFrom alignment start object.placementOrder object = (placed, none) := by
  unfold place at success
  split at success
  · cases success
  · next power =>
    split at success
    · cases success
    · split at success
      · next result =>
        cases success
        exact ⟨isPowerOfTwo_iff.mp (by simpa using power), rfl, result⟩
      · cases success

/-- If there is a section with bytes of a file, one of those is placed first, at the start rounded
up. -/
theorem exists_first_of_place (filed : ∃ sect ∈ object.sections, sect.noBits = false) :
    ∃ id others first, order = id :: others ∧ placed.sections[id]? = some first ∧
      first.noBits = false ∧ first.base.toNat = roundUp alignment.toNat start.toNat := by
  obtain ⟨power, inOrder, result⟩ := placeFrom_of_place success
  obtain ⟨_, _, alike, _⟩ := place_ok success
  obtain ⟨sect, member, isFiled⟩ := filed
  obtain ⟨number, found⟩ := List.mem_iff_getElem?.mp member
  have isNumber : number ∈ object.numbersOf false := by
    refine List.mem_filter.mpr ⟨?_, by simp [found, isFiled]⟩
    exact List.mem_range.mpr (List.getElem?_eq_some_iff.mp found).1
  obtain ⟨id, others, split⟩ := List.exists_cons_of_ne_nil (List.ne_nil_of_mem isNumber)
  have atHead : id ∈ object.numbersOf false := split ▸ List.mem_cons_self
  obtain ⟨before, wasThere, wasFiled⟩ : ∃ before, object.sections[id]? = some before ∧
      before.noBits = false := by
    have any := (List.mem_filter.mp atHead).2
    cases here : object.sections[id]? with
    | none => simp [here] at any
    | some before => exact ⟨before, rfl, by simpa [here] using any⟩
  rw [object.placementOrder_eq_numbersOf, split] at inOrder
  have unbased := congrArg (fun sections : List Section => sections[id]?) alike
  simp only [List.getElem?_map, wasThere, Option.map_some] at unbased
  obtain ⟨first, isFirst, same⟩ := Option.map_eq_some_iff.mp unbased
  refine ⟨id, _, first, inOrder, isFirst, ?_, ?_⟩
  · have kept : first.unbased.noBits = before.unbased.noBits := congrArg Section.noBits same
    exact kept.trans wasFiled
  · have bases := bases_of_placeFrom power
      (object.placementOrder_perm.nodup_iff.mpr List.nodup_range) result
    rw [object.placementOrder_eq_numbersOf, split, List.cons_append, sectionsAt, sectionsAt,
      List.filterMap_cons_some isFirst, List.filterMap_cons_some wasThere] at bases
    exact (List.cons.inj bases).1

end Object

namespace Elf

variable {config : Elf}

/-- Joining adds bytes behind those there are. -/
theorem join_extends {table : SymbolTable} {bytes content : List UInt8}
    {parts : List (Section × Program)}
    (success : config.join table bytes parts = .ok (.ok content)) : bytes <+: content := by
  induction parts generalizing bytes with
  | nil =>
    cases success
    exact List.prefix_refl _
  | cons part rest ih =>
    obtain ⟨sect, program⟩ := part
    cases filed : sect.noBits with
    | true =>
      rw [join, if_pos filed] at success
      exact ih success
    | false =>
      obtain ⟨code, _, success⟩ := join_filed filed success
      rw [List.append_assoc] at success
      exact (List.prefix_append _ _).trans (ih success)

/-- The alignment of a segment is not zero. -/
theorem segmentAlignment_withDefaults (given : Elf) :
    given.withDefaults.segmentAlignment ≠ 0 := by
  unfold withDefaults
  dsimp only
  split
  · decide
  · assumption

/-- The base address of a segment without a problem has the alignment of the segment, which is a
power of two. -/
theorem aligned_of_problem_none (nonzero : config.segmentAlignment ≠ 0)
    (sane : config.problem = none) :
    config.segmentAlignment.toNat.isPowerOfTwo ∧
      config.segmentAlignment.toNat ∣ config.baseAddress.toNat := by
  obtain ⟨_, congruent⟩ := segment_of_problem_none sane
  simp only [problem, ite_eq_right_iff, reduceCtorEq, imp_false, UInt64.not_lt, not_not,
    ite_eq_iff, and_false, false_or] at sane
  obtain ⟨_, power, aligned, _⟩ := sane
  have offset : config.segmentAlignment.toNat ∣ config.segmentOffset.toNat := by
    apply Nat.dvd_of_mod_eq_zero
    rw [← UInt64.toNat_mod, aligned]
    rfl
  refine ⟨isPowerOfTwo_iff.mp ?_, (congruent.dvd_iff (Nat.dvd_refl _)).mp offset⟩
  simp [isPowerOfTwo, nonzero, power]

/-- A power of two divides the larger ones. -/
theorem dvd_of_isPowerOfTwo_le {small large : Nat} (power : small.isPowerOfTwo)
    (other : large.isPowerOfTwo) (le : small ≤ large) : small ∣ large := by
  obtain ⟨first, rfl⟩ := power
  obtain ⟨second, rfl⟩ := other
  exact Nat.pow_dvd_pow 2 ((Nat.pow_le_pow_iff_right (by decide)).mp le)

/-- The entry of a file is read back. -/
theorem entry_file (entry memoryEnd : UInt64) (content : List UInt8) :
    (FileHeader.read (config.file entry memoryEnd content)).entry = entry.toNat := by
  rw [file, List.append_assoc, List.append_assoc, read_fileHeader]
  rfl

/-- The content of the segment stands in a file at its offset. -/
theorem drop_file (room : fileHeaderSize + programHeaderSize ≤ config.segmentOffset.toNat)
    (entry memoryEnd : UInt64) (content : List UInt8) :
    (config.file entry memoryEnd content).drop config.segmentOffset.toNat = content := by
  unfold file
  apply List.drop_left'
  simp only [List.length_append, List.length_replicate, length_fileHeader, length_programHeader]
  omega

/-- An executable without a named entry, of an object that has sections with bytes of a file, starts
at the base address. The first section in the order of placement has the least aligned address from
there on, and its code is in the file behind zeros for what lies between. So it is at the base
address, and execution starts with it, exactly if that is aligned, as it is if sections are aligned
no more than the segment. -/
theorem default_entry_iff {given : Elf} {object written : Object} {file : List UInt8}
    (unnamed : given.entry = "") (filed : ∃ sect ∈ object.sections, sect.noBits = false)
    (success : given.write object = .ok (written, .ok file)) :
    let config := given.withDefaults
    let start := config.baseAddress.toNat
    ∃ placed id others first,
      object.place config.baseAddress config.sectionAlign = (placed, .ok (id :: others)) ∧
      written.bare = placed.bare ∧ placed.sections[id]? = some first ∧ first.noBits = false ∧
      (FileHeader.read file).entry = start ∧
      IsLeast {address | start ≤ address ∧ config.sectionAlign.toNat ∣ address}
        first.base.toNat ∧
      (∃ program code rest, placed.Emits (.standard placed.table true) id program ∧
        program.relocated first.base (config.resolve placed.table) = .ok code ∧
        file.drop config.segmentOffset.toNat =
          List.replicate (first.base.toNat - start) 0 ++ code ++ rest) ∧
      (first.base = config.baseAddress ↔ config.sectionAlign.toNat ∣ start) ∧
      (config.sectionAlign ≤ config.segmentAlignment → first.base = config.baseAddress) := by
  intro config start
  obtain ⟨placed, order, programs, content, entry, sane, places, alike, emits, joins, enters,
    rfl⟩ := write_ok success
  obtain ⟨id, others, first, rfl, isFirst, isFiled, base⟩ :=
    Object.exists_first_of_place places filed
  obtain ⟨power, _⟩ := Object.placeFrom_of_place places
  have positive := Nat.pos_of_isPowerOfTwo power
  have least := isLeast_roundUp positive start
  rw [← base] at least
  obtain ⟨room, _⟩ := segment_of_problem_none sane
  have atBase : first.base = config.baseAddress ↔ config.sectionAlign.toNat ∣ start := by
    rw [← roundUp_eq_self_iff positive, ← base, UInt64.toNat_inj]
  refine ⟨placed, id, others, first, places, alike, isFirst, isFiled, ?_, least, ?_, atBase, ?_⟩
  · have starts : config.entry = "" := unnamed
    rw [entry_file, (entryAddress_ok enters).1 starts]
  · cases emits with
    | cons here later =>
      rw [List.filterMap_cons_some isFirst, List.zip_cons_cons] at joins
      obtain ⟨code, relocated, joins⟩ := join_filed isFiled joins
      obtain ⟨rest, whole⟩ := join_extends joins
      have padding :
          (first.base - config.baseAddress - UInt64.ofNat ([] : List UInt8).length).toNat =
            first.base.toNat - start := toNat_padding least.1.1
      refine ⟨_, code, rest, here, relocated, ?_⟩
      rw [drop_file room, ← whole, ← padding]
      rfl
  · intro coarse
    obtain ⟨segmentPower, aligned⟩ :=
      aligned_of_problem_none given.segmentAlignment_withDefaults sane
    refine atBase.mpr (Nat.dvd_trans ?_ aligned)
    exact dvd_of_isPowerOfTwo_le power segmentPower (UInt64.le_iff_toNat_le.mp coarse)

end Elf

/-- A section with a single return. -/
def tinyCode : Object :=
  (({} : Object).openSection ".text").1.append 0 (.data [.bytes [0xc3]]) 1

/-- The segment right behind the headers, and as little aligned as they are. -/
def tinyConfig : Elf where
  baseAddress := 0x400078
  segmentOffset := 0x78
  segmentAlignment := 8

/-- The executable starts eight bytes before its code, in zeros. -/
theorem tinyCode_enters_padding :
    ∃ laid layouts written file placed id others first,
      tinyCode.layout = .ok (laid, layouts) ∧ tinyConfig.entry = "" ∧
      (∃ sect ∈ laid.sections, sect.noBits = false) ∧
      tinyConfig.write laid = .ok (written, .ok file) ∧
      laid.place 0x400078 16 = (placed, .ok (id :: others)) ∧ written.bare = placed.bare ∧
      placed.sections[id]? = some first ∧ first.noBits = false ∧
      (Elf.FileHeader.read file).entry = 0x400078 ∧ first.base.toNat = 0x400080 ∧
      first.base ≠ tinyConfig.withDefaults.baseAddress ∧
      file.drop 0x78 = List.replicate 8 0 ++ [0xc3] := by
  obtain ⟨⟨laid, layouts⟩, lays, filed, writes⟩ := exists_ok_of_any tinyCode.layout
    (p := fun result => (∃ sect ∈ result.1.sections, sect.noBits = false) ∧
      ((tinyConfig.write result.1).toOption.any fun done => (done.2.toOption.any fun file =>
        file.drop 0x78 = List.replicate 8 0 ++ [0xc3]) = true) = true)
    (by decide +kernel)
  obtain ⟨⟨written, file?⟩, success, holds⟩ := exists_ok_of_any _ writes
  obtain ⟨file, rfl, content⟩ := exists_ok_of_any _ holds
  obtain ⟨placed, id, others, first, places, alike, isFirst, isFiled, entry, least, _, atBase, _⟩ :=
    Elf.default_entry_iff rfl filed success
  have next : IsLeast {address | 0x400078 ≤ address ∧ 16 ∣ address} 0x400080 := by
    refine ⟨⟨by decide, by decide⟩, ?_⟩
    rintro address ⟨above, aligned⟩
    omega
  have unaligned : first.base ≠ tinyConfig.withDefaults.baseAddress :=
    fun same => absurd (atBase.mp same) (by decide)
  exact ⟨laid, layouts, written, file, placed, id, others, first, lays, rfl, filed, success, places,
    alike, isFirst, isFiled, entry, least.unique next, unaligned, content⟩

end Assembler
