import Assembler.Format.FlatImage
import Assembler.Proofs.Emission.Unrelocated
import Assembler.Proofs.Format.Entry
import Assembler.Proofs.Format.Loading

/-!
# Flat images and their addresses

A flat image of a built object maps addresses, counted from its origin, to bytes: every section with
bytes of a file has its code at its address, all else is zero, and the image ends where the last of
these sections does (`FlatImage.Maps`). An executable whose segment starts at the origin and has no
relocations to fill in holds the same bytes, since both are joined from the same programs
(`Elf.join_unrelocated`).
-/

namespace Assembler

variable {placed : Object}

variable {order : List Nat} {programs : List Program}

namespace Object

variable {object : Object}

/-- Sections in the order of their addresses: those with bytes of a file, then the others, each in
the order of their creation. -/
theorem sections_placementOrder (object : Object) :
    (object.placementOrder.filterMap fun id => object.sections[id]?) =
      (object.sections.filter fun sect => !sect.noBits) ++
        object.sections.filter fun sect => sect.noBits := by
  have part : ∀ test : Section → Bool,
      (((object.sections.zipIdx.filter fun entry => test entry.1).map Prod.snd).filterMap
        fun id => object.sections[id]?) = object.sections.filter test := by
    intro test
    calc
      _ = (object.sections.zipIdx.filter fun entry => test entry.1).filterMap
          (some ∘ Prod.fst) := by
        rw [List.filterMap_map]
        refine List.filterMap_congr fun entry member => ?_
        exact List.mem_zipIdx_iff_getElem?.mp (List.mem_of_mem_filter member)
      _ = (object.sections.zipIdx.map Prod.fst).filter test := by
        rw [List.filterMap_eq_map, List.filter_map]
        rfl
      _ = object.sections.filter test := by rw [List.zipIdx_map_fst]
  rw [placementOrder, List.filterMap_append, part fun sect => !sect.noBits,
    part fun sect => sect.noBits]

end Object

/-- Without relocations to fill in, an executable holds the bytes of a flat image. -/
theorem Elf.join_unrelocated {config : Elf} {table : SymbolTable} {bytes image : List UInt8}
    {parts : List (Section × Program)}
    (fresh : ∀ part ∈ parts, part.1.noBits = false → part.2.relocs = [])
    (success : FlatImage.join config.baseAddress bytes parts = .ok image) :
    config.join table bytes parts = .ok (.ok image) := by
  induction parts generalizing bytes with
  | nil =>
    cases success
    rfl
  | cons part rest ih =>
    obtain ⟨sect, program⟩ := part
    obtain ⟨here, later⟩ := List.forall_mem_cons.mp fresh
    cases filed : sect.noBits with
    | true =>
      rw [FlatImage.join, if_pos filed] at success
      rw [join, if_pos filed]
      exact ih later success
    | false =>
      have none : program.relocs = [] := here filed
      rw [FlatImage.join, if_neg (by simp [filed])] at success
      split at success
      · cases success
      · rw [join, if_neg (by simp [filed]), none]
        simp only [checkRelocs, Program.relocated, none, bind, Except.bind]
        exact ih later success

namespace FlatImage

/-- An image maps the addresses from an origin on to the bytes of a placed object. -/
structure Maps (origin : UInt64) (placed : Object) (image : List UInt8) : Prop where
  /-- Sections with bytes of a file have their code. -/
  code : ∀ (id : Nat) (sect : Section), placed.sections[id]? = some sect → sect.noBits = false →
    ∃ program, placed.Emits (.standard placed.table false) id program ∧
      origin.toNat ≤ sect.base.toNat ∧ program.code.length = sect.size.toNat ∧
      ∀ offset < sect.size.toNat,
        image[sect.base.toNat - origin.toNat + offset]? = program.code[offset]?
  /-- What is in none of these sections is zero. -/
  zero : ∀ place < image.length,
    (∀ sect ∈ placed.sections, sect.noBits = false →
      origin.toNat + place < sect.base.toNat ∨ sect.stop ≤ origin.toNat + place) →
    image[place]? = some 0
  /-- The image ends where the last of these sections does. -/
  length : origin.toNat + image.length =
    ((placed.sections.filter fun sect => !sect.noBits).getLast?.map Section.stop).getD origin.toNat

section

variable {origin : UInt64} {bytes image : List UInt8} {parts : List (Section × Program)}

/-- Joining programs does not read the relocations that the sections have recorded. -/
theorem join_bare (origin : UInt64) (bytes : List UInt8) (parts : List (Section × Program)) :
    join origin bytes (parts.map (Prod.map Section.bare id)) = join origin bytes parts :=
  join_map_of_step (fun _ _ _ _ same => by simp only [join, Prod.map, Section.bare, id_eq, same]) ..

/-- A program without its relocations. -/
def plain (part : Section × Program) : Section × Program :=
  (part.1, { part.2 with relocs := [] })

/-- Joining programs does not read their relocations. -/
theorem join_plain (origin : UInt64) (bytes : List UInt8) (parts : List (Section × Program)) :
    join origin bytes (parts.map plain) = join origin bytes parts :=
  join_map_of_step (fun _ _ _ _ same => by simp only [join, plain, same]) ..

/-- The first of several programs is padded and appended, if it is as long as its section. -/
theorem join_filed {sect : Section} {program : Program} (filed : sect.noBits = false)
    (size : UInt64.ofNat program.code.length = sect.size) :
    join origin bytes ((sect, program) :: parts) =
      join origin (bytes ++ List.replicate
        (sect.base - origin - UInt64.ofNat bytes.length).toNat 0 ++ program.code) parts := by
  rw [join, if_neg (by simp [filed]), if_neg (by simp [size])]

/-- Programs that are as long as their sections are joined. -/
theorem exists_join (sized : ∀ part ∈ parts, part.1.noBits = false →
      part.2.code.length = part.1.size.toNat) : ∃ image, join origin bytes parts = .ok image := by
  induction parts generalizing bytes with
  | nil => exact ⟨bytes, rfl⟩
  | cons part rest ih =>
    obtain ⟨sect, program⟩ := part
    obtain ⟨size, sizes⟩ := List.forall_mem_cons.mp sized
    cases filed : sect.noBits with
    | true =>
      rw [join, if_pos filed]
      exact ih sizes
    | false =>
      rw [join_filed filed (by rw [size filed, UInt64.ofNat_toNat])]
      exact ih sizes

/-- Joined programs of stacked sections end where the last section with bytes of a file does. -/
theorem length_of_join (stacked : Stacked (origin.toNat + bytes.length) (parts.map Prod.fst))
    (ordered : FiledFirst (parts.map Prod.fst))
    (sized : ∀ part ∈ parts, part.1.noBits = false →
      part.2.code.length = part.1.size.toNat) (success : join origin bytes parts = .ok image) :
    origin.toNat + image.length = stackEnd (origin.toNat + bytes.length)
      ((parts.map Prod.fst).filter fun sect => !sect.noBits) := by
  induction parts generalizing bytes with
  | nil =>
    cases success
    rfl
  | cons part rest ih =>
    obtain ⟨sect, program⟩ := part
    obtain ⟨start, limit, others⟩ := stacked
    obtain ⟨first, later⟩ := List.pairwise_cons.mp ordered
    obtain ⟨size, sizes⟩ := List.forall_mem_cons.mp sized
    have start : origin.toNat + bytes.length ≤ sect.base.toNat := start
    cases filed : sect.noBits with
    | true =>
      have reserved : ∀ part ∈ (sect, program) :: rest, part.1.noBits = true :=
        List.forall_mem_cons.mpr
          ⟨filed, fun part member => first part.1 (List.mem_map_of_mem member) filed⟩
      have joined := @Elf.join_unrelocated { baseAddress := origin } {} bytes image _
        (fun part member isFiled => by simp [reserved part member] at isFiled) success
      rw [Elf.join_reserved reserved] at joined
      cases joined
      rw [List.filter_eq_nil_iff.mpr, stackEnd]
      intro other member
      obtain ⟨part, among, rfl⟩ := List.mem_map.mp member
      simp [reserved part among]
    | false =>
      have size : program.code.length = sect.size.toNat := size filed
      rw [join_filed filed (by rw [size, UInt64.ofNat_toNat]), Elf.toNat_padding start] at success
      have stop : sect.stop = origin.toNat + (bytes ++ List.replicate
          (sect.base.toNat - (origin.toNat + bytes.length)) 0 ++ program.code).length := by
        simp only [Section.stop, List.length_append, List.length_replicate]
        omega
      have others : Stacked sect.stop (rest.map Prod.fst) := others
      rw [stop] at others
      rw [ih others later sizes success, List.map_cons, List.filter_cons_of_pos (by simp [filed]),
        stackEnd, stop]

/-- Joined programs of stacked sections are where their sections are. -/
theorem join_holds (stacked : Stacked origin.toNat (parts.map Prod.fst))
    (ordered : FiledFirst (parts.map Prod.fst))
    (sized : ∀ part ∈ parts, part.1.noBits = false →
      part.2.code.length = part.1.size.toNat) (success : join origin [] parts = .ok image) :
    Elf.Holds (fun _ => none) origin.toNat 0 (parts.map plain) image := by
  have sections : (parts.map plain).map Prod.fst = parts.map Prod.fst := by
    rw [List.map_map]
    rfl
  have joined := @Elf.join_unrelocated { baseAddress := origin } {} [] image (parts.map plain)
    (by
      intro part member _
      obtain ⟨other, _, rfl⟩ := List.mem_map.mp member
      rfl)
    (by rwa [join_plain])
  refine (Elf.join_ok ?_ ?_ ?_ joined).2
  · rwa [sections]
  · rwa [sections]
  · intro part member filed code relocated
    obtain ⟨other, among, rfl⟩ := List.mem_map.mp member
    cases relocated
    exact sized other among filed

end

section

variable {image : FlatImage} {object written : Object} {bytes : List UInt8}

/-- What emission leaves behind is not read when programs are joined. -/
theorem join_alike {origin : UInt64} (alike : written.bare = placed.bare) :
    join origin [] ((order.filterMap fun id => written.sections[id]?).zip programs) =
      join origin [] ((order.filterMap fun id => placed.sections[id]?).zip programs) := by
  rw [← join_bare, ← List.zip_map_left, Elf.map_bare_of_alike alike, List.zip_map_left, join_bare]

/-- What was done to write an image: the object was placed, and its sections were emitted and
joined. Emission left nothing that was read. -/
theorem write_ok (success : image.write object = .ok (written, .ok bytes)) :
    ∃ placed order programs,
      object.place image.origin image.alignment = (placed, .ok order) ∧
      placed.emitAll (.standard placed.table false) order = .ok (written, .ok programs) ∧
      join image.origin [] ((order.filterMap fun id => placed.sections[id]?).zip programs) =
        .ok bytes := by
  unfold write at success
  split at success
  · cases success
  · next placed order places =>
    obtain ⟨⟨emitted, programs?⟩, emits, success⟩ := exists_of_bind_ok success
    cases programs? with
    | error error => cases success
    | ok programs =>
      simp only [pure, Except.pure, Except.ok.injEq, Prod.mk.injEq] at success
      obtain ⟨rfl, joins⟩ := success
      obtain ⟨alike, _⟩ := Object.emitAll_ok (Object.nodup_of_place places) emits
      refine ⟨placed, order, programs, places, emits, ?_⟩
      rwa [join_alike alike] at joins

/-- An object that is placed, emitted and joined is written. -/
theorem write_eq
    (places : object.place image.origin image.alignment = (placed, .ok order))
    (emits : placed.emitAll (.standard placed.table false) order = .ok (written, .ok programs))
    (joins : join image.origin [] ((order.filterMap fun id => placed.sections[id]?).zip programs) =
      .ok bytes) : image.write object = .ok (written, .ok bytes) := by
  obtain ⟨alike, _⟩ := Object.emitAll_ok (Object.nodup_of_place places) emits
  rw [← join_alike alike] at joins
  simp only [write, places, emits, joins, bind, Except.bind, pure, Except.pure]

end

end FlatImage

namespace FlatImage

variable {image : FlatImage} {object written : Object} {bytes : List UInt8}

/-- Joined programs map the addresses of a placed object. -/
theorem maps_of_join {origin : UInt64} {parts : List (Section × Program)}
    (listed : placed.Listed (.standard placed.table false) order parts)
    (inOrder : order = placed.placementOrder)
    (sections : parts.map Prod.fst = order.filterMap fun id => placed.sections[id]?)
    (stacked : Stacked origin.toNat (parts.map Prod.fst))
    (ordered : FiledFirst (parts.map Prod.fst))
    (sized : ∀ part ∈ parts, part.1.noBits = false → part.2.code.length = part.1.size.toNat)
    (joins : join origin [] parts = .ok bytes) : Maps origin placed bytes := by
  have holds := join_holds stacked ordered sized joins
  constructor
  · intro id sect found filed
    have inRange : id < placed.sections.length := (List.getElem?_eq_some_iff.mp found).1
    have member : id ∈ order :=
      inOrder ▸ placed.placementOrder_perm.mem_iff.mpr (List.mem_range.mpr inRange)
    obtain ⟨program, isPart, emits⟩ := listed.exists_part member found
    obtain ⟨code, same, size, places⟩ := holds.code _ (List.mem_map_of_mem isPart) filed
    cases same
    exact ⟨program, emits, stacked.le_base (List.mem_map_of_mem isPart), size, size ▸ places⟩
  · intro place inside uncovered
    refine holds.zero place inside (Nat.zero_le _) fun part member filed => ?_
    obtain ⟨other, among, rfl⟩ := List.mem_map.mp member
    obtain ⟨id, found, _⟩ := listed.exists_id among
    exact uncovered other.1 (List.mem_of_getElem? found) filed
  · have ends := @length_of_join origin [] bytes parts stacked ordered sized joins
    rw [ends, stackEnd_eq_getLast?, sections, inOrder, placed.sections_placementOrder,
      List.filter_append, List.filter_filter, List.filter_filter]
    simp

end FlatImage

namespace Elf

/-- The bytes of a file that its program header claims for the segment. -/
def segmentBytes (file : List UInt8) : List UInt8 :=
  (file.drop (segment file).offset).take (segment file).fileSize

/-- The bytes of a file's segment are its content. -/
theorem segmentBytes_file {config : Elf} {entry memoryEnd : UInt64} {content : List UInt8}
    (room : fileHeaderSize + programHeaderSize ≤ config.segmentOffset.toNat)
    (upTo : config.baseAddress.toNat + content.length ≤ memoryEnd.toNat) :
    segmentBytes (config.file entry memoryEnd content) = content := by
  obtain ⟨_, segment, _⟩ := @file_ok config entry _ _ room upTo
  rw [segmentBytes, segment, drop_file room, List.take_length]

end Elf

namespace FlatImage

variable {image : FlatImage} {object written : Object} {bytes : List UInt8}

/-- An executable at the origin of an image, with nothing to relocate, is written if its own numbers
and its entry are accepted, and has the bytes of the image in its segment. -/
theorem exists_executable {given : Elf} {entry : UInt64} (built : object.Built)
    (sizes : ∀ sect ∈ object.sections, sect.exactSize < 2 ^ 63)
    (address : given.withDefaults.baseAddress = image.origin)
    (alignment : given.withDefaults.sectionAlign = image.alignment)
    (fresh : ∀ sect ∈ object.sections, sect.noBits = false → sect.relocs = [])
    (places : object.place image.origin image.alignment = (placed, .ok order))
    (emits : placed.emitAll (.standard placed.table false) order = .ok (written, .ok programs))
    (joins : join image.origin [] ((order.filterMap fun id => placed.sections[id]?).zip programs) =
      .ok bytes) (sane : given.withDefaults.problem = none)
    (enters : given.withDefaults.entryAddress placed = .ok (.ok entry)) :
    ∃ file, given.write object = .ok (written, .ok file) ∧ Elf.segmentBytes file = bytes := by
  obtain ⟨listed, _, sections, stacked, ordered, sized⟩ :=
    Object.parts_of_emits built sizes places
      (Object.emitAll_ok (Object.nodup_of_place places) emits).2
  obtain ⟨_, _, bases, _⟩ := Object.place_ok places
  have holds := join_holds stacked ordered sized joins
  have recorded : ∀ sect ∈ placed.sections, sect.noBits = false → sect.relocs = [] :=
    Object.forall_of_unbased (fun _ => Iff.rfl) bases fresh
  have unrelocated : ∀ part ∈ (order.filterMap fun id => placed.sections[id]?).zip programs,
      part.1.noBits = false → part.2.relocs = [] := by
    intro part member filed
    obtain ⟨id, found, emitted, success, accepted⟩ := listed.exists_id member
    rw [(Object.emitSection_unrelocated found success accepted).2]
    exact recorded part.1 (List.mem_of_getElem? found) filed
  rw [← address] at joins places stacked holds
  rw [← alignment] at places
  refine ⟨_, Elf.write_eq sane places (Object.emitAll_unrelocated emits)
    (Elf.join_unrelocated unrelocated joins) enters, ?_⟩
  obtain ⟨room, _⟩ := Elf.segment_of_problem_none sane
  have upTo := holds.stop
  rw [List.map_map, Nat.add_zero] at upTo
  change _ ≤ stackEnd _ (List.map Prod.fst _) at upTo
  rw [← Elf.toNat_memoryEnd stacked, sections] at upTo
  exact Elf.segmentBytes_file room upTo

/-- A flat image of a built object, whose sections are not too large, is written whenever the object
is placed and emitted, and then maps its addresses. An executable with the same start and alignment,
of an object that has no relocations recorded, has the same bytes in its segment, and is written
unless its own numbers or its entry are refused. -/
theorem write_maps (image : FlatImage) (built : object.Built)
    (sizes : ∀ sect ∈ object.sections, sect.exactSize < 2 ^ 63) :
    (∀ placed order emitted programs,
      object.place image.origin image.alignment = (placed, .ok order) →
      placed.emitAll (.standard placed.table false) order = .ok (emitted, .ok programs) →
      ∃ bytes, image.write object = .ok (emitted, .ok bytes)) ∧
    ∀ written bytes, image.write object = .ok (written, .ok bytes) →
      ∃ placed order, object.place image.origin image.alignment = (placed, .ok order) ∧
        written.bare = placed.bare ∧ Maps image.origin placed bytes ∧
        ∀ given : Elf, given.withDefaults.baseAddress = image.origin →
          given.withDefaults.sectionAlign = image.alignment →
          (∀ sect ∈ object.sections, sect.noBits = false → sect.relocs = []) →
          (given.withDefaults.problem = none →
            ∀ entry, given.withDefaults.entryAddress placed = .ok (.ok entry) →
              ∃ file, given.write object = .ok (written, .ok file)) ∧
          ∀ left file, given.write object = .ok (left, .ok file) →
            left = written ∧ Elf.segmentBytes file = bytes := by
  constructor
  · intro placed order emitted programs places emits
    obtain ⟨_, _, _, _, _, sized⟩ := Object.parts_of_emits built sizes places
      (Object.emitAll_ok (Object.nodup_of_place places) emits).2
    obtain ⟨bytes, joins⟩ := @exists_join image.origin [] _ sized
    exact ⟨bytes, write_eq places emits joins⟩
  · intro written bytes success
    obtain ⟨placed, order, programs, places, emits, joins⟩ := write_ok success
    obtain ⟨listed, inOrder, sections, stacked, ordered, sized⟩ :=
      Object.parts_of_emits built sizes places
      (Object.emitAll_ok (Object.nodup_of_place places) emits).2
    obtain ⟨alike, _⟩ := Object.emitAll_ok (Object.nodup_of_place places) emits
    refine ⟨placed, order, places, alike,
      maps_of_join listed inOrder sections stacked ordered sized joins, ?_⟩
    intro given address alignment fresh
    constructor
    · intro sane entry enters
      obtain ⟨file, writes, _⟩ := exists_executable built sizes address alignment fresh places emits
        joins sane enters
      exact ⟨file, writes⟩
    · intro left file writes
      obtain ⟨_, _, _, _, entry, sane, alsoPlaces, _, _, _, enters, _⟩ := Elf.write_ok writes
      rw [address, alignment, places] at alsoPlaces
      cases alsoPlaces
      obtain ⟨other, alsoWrites, segment⟩ := exists_executable built sizes address alignment fresh
        places emits joins sane enters
      rw [alsoWrites] at writes
      cases writes
      exact ⟨rfl, segment⟩

end FlatImage

/-- Code, room that is opened before the data, data, and a section with nothing in it. -/
def scattered : Object :=
  let opened := ((((({} : Object).openSection ".text").1.openSection ".bss").1.openSection
    ".data").1.openSection ".end").1
  let reserved := opened.modifySection 1 fun sect => sect.moved 0 true
  ((reserved.append 0 (.data [.bytes [0xc3, 0x90, 0x90]]) 1).append 1 (.reserve (.ofInt 3) 4)
    2).append 2 (.data [.field { expr := .ofInt 0x1234, width := 16 }]) 3

/-- Calls build `scattered`. -/
theorem scattered_built : scattered.Built := by
  have opened : Object.Built _ :=
    (((Relation.ReflTransGen.refl.tail (.openSection ".text")).tail (.openSection ".bss")).tail
      (.openSection ".data")).tail (.openSection ".end")
  exact (((opened.tail (.move 1 0 true)).tail (.append 0 _ 1 none)).tail (.append 1 _ 2 none)).tail
    (.append 2 _ 3 none)

/-- An executable that starts at an odd address, right behind the headers and some padding. -/
def oddConfig : Elf where
  baseAddress := 0x40007b
  segmentOffset := 0x7b
  segmentAlignment := 1
  sectionAlign := 4

/-- From an odd origin on, the image of `scattered` has zeros up to the code, between code and data,
and up to the empty section, which is the last. The executable has the same bytes. -/
theorem scattered_maps :
    ∃ laid layouts written bytes placed order file,
      scattered.layout = .ok (laid, layouts) ∧ laid.Built ∧
        (∀ sect ∈ laid.sections, sect.exactSize < 2 ^ 63) ∧
        ({ origin := 0x40007b } : FlatImage).write laid = .ok (written, .ok bytes) ∧
        laid.place 0x40007b 4 = (placed, .ok order) ∧ FlatImage.Maps 0x40007b placed bytes ∧
        oddConfig.write laid = .ok (written, .ok file) ∧ Elf.segmentBytes file = bytes ∧
        bytes = [0, 0xc3, 0x90, 0x90, 0, 0x34, 0x12, 0, 0] := by
  obtain ⟨⟨laid, layouts⟩, lays, sizes, fresh, writes, links⟩ := exists_ok_of_any scattered.layout
    (p := fun result => (∀ sect ∈ result.1.sections, sect.exactSize < 2 ^ 63) ∧
      (∀ sect ∈ result.1.sections, sect.noBits = false → sect.relocs = []) ∧
      ((({ origin := 0x40007b } : FlatImage).write result.1).toOption.any fun done =>
        (done.2.toOption.any fun bytes => bytes = [0, 0xc3, 0x90, 0x90, 0, 0x34, 0x12, 0, 0]) =
          true) = true ∧
      ((oddConfig.write result.1).toOption.any fun done => (done.2.toOption.any fun _ => True) =
        true) = true)
    (by decide +kernel)
  obtain ⟨⟨written, bytes?⟩, success, holds⟩ := exists_ok_of_any _ writes
  obtain ⟨bytes, rfl, content⟩ := exists_ok_of_any _ holds
  obtain ⟨⟨left, file?⟩, executable, holds⟩ := exists_ok_of_any _ links
  obtain ⟨file, rfl, _⟩ := exists_ok_of_any _ holds
  have built : laid.Built := scattered_built.layoutSections lays
  obtain ⟨placed, order, places, _, maps, alike⟩ :=
    (FlatImage.write_maps { origin := 0x40007b } built sizes).2 written bytes success
  obtain ⟨rfl, segment⟩ := (alike oddConfig rfl rfl fresh).2 left file executable
  exact ⟨laid, layouts, left, bytes, placed, order, file, lays, built, sizes, success, places, maps,
    executable, segment, content⟩

end Assembler
