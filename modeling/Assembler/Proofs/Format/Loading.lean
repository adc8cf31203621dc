import Assembler.Proofs.Format.Headers
import Assembler.Proofs.Format.Writing
import Assembler.Proofs.Object.Content

/-!
# Executables in memory

An executable that was written from a built object is read back by a loader as the placed object
(`Elf.Loads`): every section with bytes of a file has its relocated code at its address, and all
else in the segment is zero.
-/

namespace Assembler

variable {part : Section × Program}

namespace Elf

/-- A loader that maps the segment of a file gets a placed object, and starts it at an entry. -/
structure Loads (config : Elf) (placed : Object) (entry : UInt64) (file : List UInt8) : Prop where
  header : FileHeader.read file = .executable entry.toNat
  type : (segment file).type = 1
  flags : (segment file).flags = config.segmentFlags.toNat
  offset : (segment file).offset = config.segmentOffset.toNat
  address : (segment file).address = config.baseAddress.toNat
  alignment : (segment file).alignment = config.segmentAlignment.toNat
  congruent : (segment file).offset ≡ (segment file).address [MOD (segment file).alignment]
  length : file.length = (segment file).offset + (segment file).fileSize
  fileSize_le : (segment file).fileSize ≤ (segment file).memorySize
  inside : ∀ sect ∈ placed.sections, (segment file).address ≤ sect.base.toNat ∧
    sect.stop ≤ (segment file).address + (segment file).memorySize
  /-- Sections with bytes of a file have their relocated code. -/
  code : ∀ (id : Nat) (sect : Section), placed.sections[id]? = some sect → sect.noBits = false →
    ∃ program code, placed.Emits (.standard placed.table true) id program ∧
      program.relocated sect.base (config.resolve placed.table) = .ok code ∧
      code.length = sect.size.toNat ∧
      ∀ offset < sect.size.toNat, memory file (sect.base.toNat + offset) = code[offset]?
  /-- Sections without bytes of a file are zero. -/
  reserved : ∀ sect ∈ placed.sections, sect.noBits = true → ∀ offset < sect.size.toNat,
    memory file (sect.base.toNat + offset) = some 0
  /-- What is in no section is zero. -/
  gap : ∀ place, (segment file).address ≤ place →
    place < (segment file).address + (segment file).memorySize →
    (∀ sect ∈ placed.sections, place < sect.base.toNat ∨ sect.stop ≤ place) →
    memory file place = some 0
  start : config.entry = "" → entry = config.baseAddress
  label : config.entry ≠ "" → ∃ id symbol place, placed.table.find? config.entry = some id ∧
    placed.table.get id = .ok symbol ∧ symbol.meaning = .label place ∧
    placed.locationAddress place = .ok entry

variable {config : Elf} {placed : Object} {entry : UInt64}

section

variable {parts : List (Section × Program)} {content : List UInt8} {memoryEnd : UInt64}
  {resolve : SymbolId → Option UInt64}
  (room : fileHeaderSize + programHeaderSize ≤ config.segmentOffset.toNat)
  (stacked : Stacked config.baseAddress.toNat (parts.map Prod.fst))
  (ends : memoryEnd.toNat = stackEnd config.baseAddress.toNat (parts.map Prod.fst))
  (holds : Holds resolve config.baseAddress.toNat 0 parts content)

include stacked ends in
/-- Sections lie between the base address and the end of the memory. -/
theorem inside_memory (member : part ∈ parts) :
    config.baseAddress.toNat ≤ part.1.base.toNat ∧ part.1.stop ≤ memoryEnd.toNat := by
  have among : part.1 ∈ parts.map Prod.fst := List.mem_map_of_mem member
  exact ⟨stacked.le_base among, ends ▸ stacked.stop_le among⟩

namespace Holds

include ends holds in
/-- The content ends inside the memory. -/
theorem content_le : config.baseAddress.toNat + content.length ≤ memoryEnd.toNat :=
  ends ▸ holds.stop

include room stacked ends holds

/-- Sections with bytes of a file have their relocated code in memory. -/
theorem memory_code (member : part ∈ parts)
    (filed : part.1.noBits = false) :
    ∃ code, part.2.relocated part.1.base resolve = .ok code ∧ code.length = part.1.size.toNat ∧
      ∀ offset < part.1.size.toNat,
        memory (config.file entry memoryEnd content) (part.1.base.toNat + offset) =
          code[offset]? := by
  obtain ⟨code, relocated, size, bytes⟩ := holds.code part member filed
  refine ⟨code, relocated, size, fun offset within => ?_⟩
  obtain ⟨above, below⟩ := inside_memory stacked ends member
  have upTo := holds.inside part member filed
  simp only [Section.stop] at below upTo
  rw [memory_file room (holds.content_le ends) (by omega) (by omega), if_pos (by omega),
    ← bytes offset (by omega), Nat.sub_add_comm above]

/-- Sections without bytes of a file are zero in memory. -/
theorem memory_reserved (member : part ∈ parts)
    (reserved : part.1.noBits = true) : ∀ offset < part.1.size.toNat,
      memory (config.file entry memoryEnd content) (part.1.base.toNat + offset) = some 0 := by
  intro offset within
  obtain ⟨above, below⟩ := inside_memory stacked ends member
  have beyond := holds.behind part member reserved
  simp only [Section.stop] at below
  rw [memory_file room (holds.content_le ends) (by omega) (by omega), if_neg (by omega)]

omit stacked in
/-- Between sections the memory is zero. -/
theorem memory_gap {place : Nat} (above : config.baseAddress.toNat ≤ place)
    (below : place < memoryEnd.toNat)
    (uncovered : ∀ part ∈ parts, place < part.1.base.toNat ∨ part.1.stop ≤ place) :
    memory (config.file entry memoryEnd content) place = some 0 := by
  rw [memory_file room (holds.content_le ends) above below]
  split
  · refine holds.zero _ (by omega) (Nat.zero_le _) fun part member _ => ?_
    rw [Nat.add_sub_cancel' above]
    exact uncovered part member
  · rfl

end Holds

end

/-- A file around the content of a segment that holds all sections loads them. -/
theorem Holds.loads {order : List Nat} {parts : List (Section × Program)} {content : List UInt8}
    {memoryEnd : UInt64} (sane : config.problem = none)
    (complete : order.Perm (List.range placed.sections.length))
    (listed : placed.Listed (.standard placed.table true) order parts)
    (stacked : Stacked config.baseAddress.toNat (parts.map Prod.fst))
    (ends : memoryEnd.toNat = stackEnd config.baseAddress.toNat (parts.map Prod.fst))
    (enters : config.entryAddress placed = .ok (.ok entry))
    (holds : Holds (config.resolve placed.table) config.baseAddress.toNat 0 parts content) :
    config.Loads placed entry (config.file entry memoryEnd content) := by
  obtain ⟨room, congruent⟩ := segment_of_problem_none sane
  have upTo := holds.content_le ends
  obtain ⟨header, segment, headers, whole, length⟩ := @file_ok config entry _ _ room upTo
  obtain ⟨start, label⟩ := entryAddress_ok enters
  have partOf : ∀ (id : Nat) (sect : Section), placed.sections[id]? = some sect →
      ∃ program, (sect, program) ∈ parts ∧
        placed.Emits (.standard placed.table true) id program := by
    intro id sect found
    have inRange : id < placed.sections.length := (List.getElem?_eq_some_iff.mp found).1
    exact listed.exists_part (complete.mem_iff.mpr (List.mem_range.mpr inRange)) found
  have memberOf : ∀ sect ∈ placed.sections, ∃ part ∈ parts, part.1 = sect := by
    intro sect member
    obtain ⟨id, found⟩ := List.mem_iff_getElem?.mp member
    obtain ⟨program, isPart, _⟩ := partOf id sect found
    exact ⟨_, isPart, rfl⟩
  exact
    { header, start, label
      type := congrArg ProgramHeader.type segment
      flags := congrArg ProgramHeader.flags segment
      offset := congrArg ProgramHeader.offset segment
      address := congrArg ProgramHeader.address segment
      alignment := congrArg ProgramHeader.alignment segment
      congruent := by
        rw [segment]
        exact congruent
      length := by rw [segment, whole, List.length_append, length]
      fileSize_le := by
        rw [segment]
        dsimp only
        omega
      inside := by
        intro sect member
        obtain ⟨part, isPart, rfl⟩ := memberOf sect member
        obtain ⟨above, below⟩ := inside_memory stacked ends isPart
        rw [segment]
        dsimp only
        omega
      code := by
        intro id sect found filed
        obtain ⟨program, isPart, emits⟩ := partOf id sect found
        obtain ⟨code, relocated⟩ := holds.memory_code room stacked ends isPart filed
        exact ⟨program, code, emits, relocated⟩
      reserved := by
        intro sect member reserved
        obtain ⟨part, isPart, rfl⟩ := memberOf sect member
        exact holds.memory_reserved room stacked ends isPart reserved
      gap := by
        rw [segment]
        dsimp only
        intro place above below uncovered
        refine holds.memory_gap room ends above (by omega) fun part member => ?_
        obtain ⟨id, found, _⟩ := listed.exists_id member
        exact uncovered part.1 (List.mem_of_getElem? found) }

end Elf

/-- The sections of a placed object with the programs that were emitted: they are stacked from the
start on, those with bytes of a file first, and the programs of these are as long as they are. -/
theorem Object.parts_of_emits {object placed : Object} {start alignment : UInt64} {output : Output}
    {order : List Nat} {programs : List Program} (built : object.Built)
    (sizes : ∀ sect ∈ object.sections, sect.exactSize < 2 ^ 63)
    (places : object.place start alignment = (placed, .ok order))
    (emits : List.Forall₂ (placed.Emits output) order programs) :
    let parts := (order.filterMap fun id => placed.sections[id]?).zip programs
    placed.Listed output order parts ∧ order = placed.placementOrder ∧
      (parts.map Prod.fst = order.filterMap fun id => placed.sections[id]?) ∧
      Stacked start.toNat (parts.map Prod.fst) ∧ FiledFirst (parts.map Prod.fst) ∧
      ∀ part ∈ parts, part.1.noBits = false → part.2.code.length = part.1.size.toNat := by
  intro parts
  obtain ⟨inOrder, _, bases, stacked⟩ := place_ok places
  rw [← placementOrder_eq bases] at inOrder
  subst inOrder
  obtain ⟨listed, sections⟩ := Listed.of_emits (fun _ => exists_of_mem_placementOrder) emits
  have step : object.Step (object.place start alignment).1 := .place _ _
  rw [places] at step
  refine ⟨listed, rfl, sections, sections ▸ stacked, sections ▸ placed.filedFirst, ?_⟩
  intro part member filed
  obtain ⟨id, found, emitted, success, accepted⟩ := listed.exists_id member
  obtain ⟨laidOut, sane, _⟩ := emitSection_ok found success accepted
  have sound : part.1.Sound id := built.sound.step step id part.1 found laidOut sane
  have small : ∀ sect ∈ placed.sections, sect.exactSize < 2 ^ 63 :=
    forall_of_unbased (fun _ => Iff.rfl) bases sizes
  exact sound.length_code (small part.1 (List.mem_of_getElem? found)) found filed success accepted

/-- A file that was written from a built object, whose sections are not too large, loads it as it
was placed, with the addresses that the object which is handed back has. -/
theorem Elf.write_loads {given : Elf} {object written : Object} {file : List UInt8}
    (built : object.Built) (sizes : ∀ sect ∈ object.sections, sect.exactSize < 2 ^ 63)
    (success : given.write object = .ok (written, .ok file)) :
    ∃ placed order entry,
      object.place given.withDefaults.baseAddress given.withDefaults.sectionAlign =
        (placed, .ok order) ∧
      written.bare = placed.bare ∧ given.withDefaults.Loads placed entry file := by
  obtain ⟨placed, order, programs, content, entry, sane, places, alike, emits, joins, enters,
    rfl⟩ := write_ok success
  refine ⟨placed, order, entry, places, alike, ?_⟩
  obtain ⟨listed, rfl, sections, stacked, ordered, sized⟩ :=
    Object.parts_of_emits built sizes places emits
  have ends := toNat_memoryEnd stacked
  rw [sections] at ends
  generalize (placed.placementOrder.filterMap fun id => placed.sections[id]?).zip programs = parts
    at joins listed sections stacked ordered sized
  obtain ⟨_, holds⟩ := @join_ok _ _ [] _ _ stacked ordered (fun part member filed code relocated =>
    (Program.length_relocated relocated).trans (sized part member filed)) joins
  exact holds.loads sane placed.placementOrder_perm listed stacked (sections ▸ ends) enters

/-- A push of an import's address, room for counters, and a table with the address of the entry. The
room is opened before the table, but placed after it. -/
def pusher : Object :=
  let opened := (((({} : Object).openSection ".text").1.openSection ".bss").1.openSection ".data").1
  let reserved := opened.modifySection 1 fun sect => sect.moved 0 true
  let named := { reserved with table := { symbols := [{ name := "x", meaning := .imported }] } }
  let labelled := ((named.append 0 (.data [.bytes [0xcc]]) 1).defineLabel 0 "start" 2).1
  ((labelled.append 0 (.data [.bytes [0x68], .field { expr := .ofSymbol 1, width := 32 }]) 3).append
    1 (.reserve (.ofInt 3) 4) 4).append 2 (.data [.field { expr := .ofSymbol 2, width := 64 }]) 5

/-- Calls build `pusher`. -/
theorem pusher_built : pusher.Built := by
  have opened : Object.Built _ :=
    ((Relation.ReflTransGen.refl.tail (.openSection ".text")).tail (.openSection ".bss")).tail
      (.openSection ".data")
  have labelled : Object.Built _ :=
    (((opened.tail (.move 1 0 true)).tail
      (.symbols { symbols := [{ name := "x", meaning := .imported }] })).tail
      (.append 0 (.data [.bytes [0xcc]]) 1 none)).tail (.defineLabel 0 "start" 2)
  exact ((labelled.tail (.append 0 _ 3 none)).tail (.append 1 _ 4 none)).tail (.append 2 _ 5 none)

/-- How `pusher` is written. -/
def pusherConfig : Elf where
  segmentOffset := 0x80
  segmentAlignment := 0x80
  entry := "start"
  externs := [("x", 0x500000)]

/-- The executable of `pusher` starts at its label, has the address of the import in its code and
the address of the entry in its table, and zeros in between and behind. -/
theorem pusher_loads :
    ∃ laid layouts written file placed entry,
      pusher.layout = .ok (laid, layouts) ∧ laid.Built ∧
        (∀ sect ∈ laid.sections, sect.exactSize < 2 ^ 63) ∧
        pusherConfig.write laid = .ok (written, .ok file) ∧
        laid.place 0x401000 16 = (placed, .ok [0, 2, 1]) ∧ written.bare = placed.bare ∧
        pusherConfig.withDefaults.Loads placed entry file ∧
        (Elf.FileHeader.read file).entry = 0x401001 ∧ (Elf.segment file).fileSize = 24 ∧
        (Elf.segment file).memorySize = 44 ∧
        (List.range 20).map (fun offset => Elf.memory file (0x401000 + offset)) =
          [0xcc, 0x68, 0, 0, 0x50, 0, 0, 0, 0, 0, 0, 0, 0, 0, 0, 0, 1, 0x10, 0x40, 0].map some := by
  obtain ⟨⟨laid, layouts⟩, lays, sizes, order, writes⟩ := exists_ok_of_any pusher.layout
    (p := fun result => (∀ sect ∈ result.1.sections, sect.exactSize < 2 ^ 63) ∧
      (result.1.place 0x401000 16).2.toOption = some [0, 2, 1] ∧
      ((pusherConfig.write result.1).toOption.any fun done => (done.2.toOption.any fun file =>
        (Elf.FileHeader.read file).entry = 0x401001 ∧ (Elf.segment file).fileSize = 24 ∧
        (Elf.segment file).memorySize = 44 ∧
        (List.range 20).map (fun offset => Elf.memory file (0x401000 + offset)) =
          [0xcc, 0x68, 0, 0, 0x50, 0, 0, 0, 0, 0, 0, 0, 0, 0, 0, 0, 1, 0x10, 0x40, 0].map
            some) = true) = true)
    (by decide +kernel)
  obtain ⟨⟨written, file?⟩, success, holds⟩ := exists_ok_of_any _ writes
  obtain ⟨file, rfl, reads⟩ := exists_ok_of_any _ holds
  have built : laid.Built := pusher_built.layoutSections lays
  obtain ⟨placed, numbers, entry, places, alike, loads⟩ := Elf.write_loads built sizes success
  refine ⟨laid, layouts, written, file, placed, entry, lays, built, sizes, success, ?_, alike,
    loads, reads⟩
  rw [show laid.place 0x401000 16 = (placed, .ok numbers) from places] at order ⊢
  cases order
  rfl

end Assembler
