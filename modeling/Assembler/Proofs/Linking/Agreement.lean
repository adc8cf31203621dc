import Assembler.Proofs.Linking.Programs

/-!
# Late linking agrees with early linking

An object is linked early if its imports are EQUs of their addresses from the start, and late if its
programs are relocated once the addresses are known. Both come to the same layout and to the same
bytes (`late_linking_agrees`), as long as nothing that the section refers to is laid out in another
way, no import counts so often that a word wraps, and no field was settled before its symbol was
imported. `late_linking_differs` has an object for each of these where it is not so.
-/

namespace Assembler

/-- The sections that the fields of a section refer to. -/
def Section.references (sect : Section) (id : Nat) : List Nat :=
  (sect.sites id).flatMap fun site => site.field.sectionIds.filterMap Int.toNat?

/-- The fields of a section are the same at any base. -/
theorem Section.mem_sites_of_rebase {sect : Section} {base : UInt64} {id : Nat} {site : FieldSite}
    (member : site ∈ (sect.rebase base).sites id) : site ∈ sect.sites id := by
  obtain ⟨index, chunk, chunkAt, number, inRange, inCopy⟩ := mem_sites.mp member
  exact mem_sites.mpr ⟨index, chunk, chunkAt, number, inRange, inCopy⟩

namespace Object

/-- An object whose imports have their addresses. -/
def link (object : Object) (address : String → UInt64) : Object :=
  { object with table := object.table.link address }

/-- An object with its sections at other bases. -/
def rebased (object : Object) (bases : Nat → UInt64) : Object :=
  { object with sections := object.sections.mapIdx fun id sect => sect.rebase (bases id) }

/-- The section with a number is laid out in the same way with its imports linked: its chunks can be
linked, and the branches of the layout are direct. -/
@[mk_iff]
structure Steady (object laid : Object) (id : Nat) : Prop where
  linkable : ∀ source ∈ object.sections[id]?, ∀ chunk ∈ source.chunks, chunk.Linkable object.table
  direct : ∀ sect ∈ laid.sections[id]?, sect.Direct object.table

instance (object laid : Object) (id : Nat) : Decidable (object.Steady laid id) :=
  decidable_of_iff _ (object.steady_iff laid id).symm

/-- What relocating asks of a section that was laid out. It has bytes of a file, and operands have
zero bytes of their own. No address wraps, and the addends of the relocations are words. -/
@[mk_iff]
structure Relocatable (laid : Object) (id : Nat) (sect : Section) : Prop where
  filed : sect.noBits = false
  vacant : ∀ chunk ∈ sect.chunks, chunk.body.Vacant
  size : sect.exactSize < 2 ^ 63
  reach : sect.base.toNat + sect.exactSize < 2 ^ 64
  unwrapped : ∀ site ∈ sect.symbolSites id, sect.Unwrapped site
  addends : ∀ site ∈ sect.symbolSites id, laid.fitsAddend site = true

instance (laid : Object) (id : Nat) (sect : Section) : Decidable (laid.Relocatable id sect) :=
  decidable_of_iff _ (laid.relocatable_iff id sect).symm

section

variable {object laid : Object} {layouts : List Layout} {address : String → UInt64}

/-- Rebasing gives each section its base. -/
theorem getElem?_rebased {bases : Nat → UInt64} {id : Nat} :
    (laid.rebased bases).sections[id]? =
      (laid.sections[id]?).map fun sect => sect.rebase (bases id) := by
  simp [rebased]

variable (success : object.layout = .ok (laid, layouts))
  (silent : ∀ layout ∈ layouts, layout.error = none)
include success silent

/-- Where the sections of an object that was laid out come from. -/
theorem exists_of_layout {id : Nat} {sect : Section} (found : laid.sections[id]? = some sect) :
    ∃ source layout, object.sections[id]? = some source ∧
      source.layout object.table object.maxPasses id = .ok layout ∧ layout.error = none ∧
      sect = layout.sect := by
  obtain ⟨_, untouched, each⟩ := layoutSections_ok List.nodup_range success
  by_cases inRange : id ∈ List.range object.sections.length
  · obtain ⟨source, layout, member, sourceAt, lays, recorded⟩ := each id inRange
    rw [recorded] at found
    cases found
    exact ⟨source, layout, sourceAt, lays, silent layout member, rfl⟩
  · rw [untouched id inRange] at found
    have inside := (List.getElem?_eq_some_iff.mp found).1
    exact absurd (List.mem_range.mpr inside) inRange

/-- An object can be laid out with its imports linked. Its steady sections are laid out as before,
with their imports linked. -/
theorem exists_linked_layout (address : String → UInt64) :
    ∃ linked linkedLayouts, (object.link address).layout = .ok (linked, linkedLayouts) ∧
      (∀ id : Nat, laid.sections[id]? = none → linked.sections[id]? = none) ∧
      ∀ (id : Nat) (sect : Section), laid.sections[id]? = some sect → object.Steady laid id →
        linked.sections[id]? = some (sect.link object.table address) := by
  have ids := @List.nodup_range object.sections.length
  obtain ⟨_, untouched, each⟩ := layoutSections_ok ids success
  have relaid : ∀ id ∈ List.range object.sections.length, ∃ sect layout,
      (object.link address).sections[id]? = some sect ∧
      sect.layout (object.link address).table (object.link address).maxPasses id =
        .ok layout := by
    intro id inRange
    obtain ⟨source, layout, member, sourceAt, lays, _⟩ := each id inRange
    obtain ⟨linked, linkedLays, _⟩ := exists_layout_link lays (silent layout member)
    exact ⟨source, linked, sourceAt, linkedLays⟩
  obtain ⟨linked, linkedLayouts, linkedSuccess⟩ := exists_layoutSections ids relaid
  obtain ⟨_, linkedUntouched, linkedEach⟩ := layoutSections_ok ids linkedSuccess
  refine ⟨linked, linkedLayouts, linkedSuccess, ?_, ?_⟩
  · intro id absent
    by_cases inRange : id ∈ List.range object.sections.length
    · obtain ⟨_, _, _, _, _, recorded⟩ := each id inRange
      rw [recorded] at absent
      cases absent
    · rw [linkedUntouched id inRange]
      rwa [untouched id inRange] at absent
  · intro id sect found steady
    obtain ⟨source, layout, sourceAt, lays, quiet, rfl⟩ := exists_of_layout success silent found
    have inRange := List.mem_range.mpr (List.getElem?_eq_some_iff.mp sourceAt).1
    obtain ⟨again, linkedLayout, _, againAt, linkedLays, recorded⟩ := linkedEach id inRange
    obtain ⟨expected, expectedLays, same⟩ := @exists_layout_link _ address _ _ _ _ lays quiet
    have isSource : again = source := Option.some.inj (againAt.symm.trans sourceAt)
    subst isSource
    have isExpected : linkedLayout = expected := Except.ok.inj (linkedLays.symm.trans expectedLays)
    rw [recorded, isExpected, same (steady.linkable again sourceAt) (steady.direct _ found)]
    rfl

omit success silent in
/-- The positions of a steady section keep their addresses, wherever the sections are put. -/
theorem alike_of_steady {linked : Object} {address : String → UInt64}
    (absent : ∀ id : Nat, laid.sections[id]? = none → linked.sections[id]? = none)
    (kept : ∀ (id : Nat) (sect : Section), laid.sections[id]? = some sect →
      object.Steady laid id → linked.sections[id]? = some (sect.link object.table address))
    (bases : Nat → UInt64) {id : SectionId}
    (steady : ∀ number ∈ id.toNat?, object.Steady laid number) :
    (laid.rebased bases).Alike (linked.rebased bases) id := by
  rintro location rfl
  unfold locationAddress
  cases known : location.sectionId with
  | negSucc number => rfl
  | ofNat number =>
    rw [known] at steady
    cases found : laid.sections[number]? with
    | none => simp [getSection, getElem?_rebased, found, absent number found]
    | some sect =>
      have foundLinked := kept number sect found (steady number rfl)
      have slots : ((sect.link object.table address).rebase (bases number)).slots =
          (sect.rebase (bases number)).slots := by
        simp only [Section.rebase, Section.link, Section.slots, List.map_map]
        rfl
      have offsets : ((sect.link object.table address).rebase (bases number)).offsetOf location =
          (sect.rebase (bases number)).offsetOf location := by
        rw [Section.offsetOf, slots]
        rfl
      simp only [getSection, getElem?_rebased, found, foundLinked, Option.map_some, bind,
        Except.bind, pure, Except.pure, offsets]
      rfl

/-- The fields of a steady section that refers to steady sections can be linked late. -/
theorem linkable_of_steady {id : Nat} {sect : Section} {bases : Nat → UInt64} {late : Object}
    (found : laid.sections[id]? = some sect) (steady : object.Steady laid id)
    (relocatable : (laid.rebased bases).Relocatable id (sect.rebase (bases id)))
    (alike : ∀ site ∈ (sect.rebase (bases id)).sites id, ∀ other ∈ site.field.sectionIds,
      (laid.rebased bases).Alike late other) :
    ∀ site ∈ (sect.rebase (bases id)).sites id,
      site.Linkable (laid.rebased bases) late (sect.rebase (bases id)) object.table := by
  intro site member
  have symbolic : site.field.symbol.isSome = true →
      site ∈ (sect.rebase (bases id)).symbolSites id :=
    fun isSome => Section.mem_symbolSites.mpr ⟨member, isSome⟩
  refine ⟨alike site member, ?_, fun isSome => relocatable.addends site (symbolic isSome),
    fun isSome => relocatable.unwrapped site (symbolic isSome)⟩
  obtain ⟨index, chunk, chunkAt, number, _, inCopy⟩ := Section.mem_sites.mp member
  obtain ⟨entry, isEntry, rfl⟩ := List.mem_map.mp inCopy
  obtain ⟨source, layout, sourceAt, lays, quiet, rfl⟩ := exists_of_layout success silent found
  obtain ⟨origin, originAt⟩ := exists_origin lays quiet chunkAt
  have linkable := steady.linkable source sourceAt origin.source (List.mem_of_getElem? originAt)
  exact origin.anchored linkable.fresh entry isEntry

end

end Object

/-- Linking late comes to what linking early comes to. An object that was laid out can be laid out
with its imports linked too, and a steady section then has the same slots and the same size. If the
sections that it refers to are steady as well, filling in the relocations of its program gives the
code that it has with its imports linked, at any bases. -/
theorem late_linking_agrees {object laid : Object} {layouts : List Layout}
    (success : object.layout = .ok (laid, layouts))
    (silent : ∀ layout ∈ layouts, layout.error = none) (address : String → UInt64) :
    ∃ linked linkedLayouts, (object.link address).layout = .ok (linked, linkedLayouts) ∧
      ∀ (id : Nat) (sect : Section), laid.sections[id]? = some sect → object.Steady laid id →
        (∃ other, linked.sections[id]? = some other ∧ other.slots = sect.slots ∧
          other.size = sect.size ∧ other.failed = sect.failed) ∧
        ((∀ other ∈ sect.references id, object.Steady laid other) →
          ∀ (bases : Nat → UInt64) (emitted : Object.Emitted) (program : Program)
            (code : List UInt8),
            (laid.rebased bases).Relocatable id (sect.rebase (bases id)) →
            (laid.rebased bases).emitSection (.standard laid.table true) id = .ok emitted →
            emitted.program = .ok program →
            program.relocated (bases id) (object.table.resolve address) = .ok code →
            ∀ allowed, ∃ linkedEmitted linkedProgram,
              (linked.rebased bases).emitSection (.standard linked.table allowed) id =
                .ok linkedEmitted ∧
              linkedEmitted.program = .ok linkedProgram ∧ linkedProgram.code = code ∧
              linkedProgram.relocs = []) := by
  obtain ⟨linked, linkedLayouts, linkedSuccess, absent, kept⟩ :=
    Object.exists_linked_layout success silent address
  refine ⟨linked, linkedLayouts, linkedSuccess, fun id sect found steady => ?_⟩
  have foundLinked := kept id sect found steady
  refine ⟨⟨_, foundLinked, ?_, rfl, rfl⟩, ?_⟩
  · simp only [Section.link, Section.slots, List.map_map]
    rfl
  intro references bases emitted program code relocatable emits accepted relocated allowed
  have foundRebased : (laid.rebased bases).sections[id]? = some (sect.rebase (bases id)) := by
    rw [Object.getElem?_rebased, found, Option.map_some]
  have fields := @Object.linkable_of_steady object laid layouts success silent id sect bases
    (linked.rebased bases) found steady relocatable fun site member other refers =>
      Object.alike_of_steady absent kept bases fun number isOther =>
        references number (List.mem_flatMap.mpr
          ⟨site, Section.mem_sites_of_rebase member,
            List.mem_filterMap.mpr ⟨other, refers, isOther⟩⟩)
  obtain ⟨source, layout, _, lays, quiet, rfl⟩ := Object.exists_of_layout success silent found
  have clean : (layout.sect.rebase (bases id)).Clean object.table id :=
    (clean_layout lays quiet).transfer rfl rfl rfl
  obtain ⟨prepared, _, rfl⟩ := layout_eq_ok_iff.mp lays
  refine Object.exists_program_link address linked.table allowed clean foundRebased ?_
    relocatable.filed rfl relocatable.size relocatable.reach fields relocatable.vacant emits
    accepted relocated
  rw [Object.getElem?_rebased, foundLinked]
  rfl

/-- The code of a section that is emitted with relocations and relocated, if it can be. -/
def Object.relocatedCode (object : Object) (base : UInt64) (resolve : SymbolId → Option UInt64)
    (id : Nat) : Option (List UInt8) :=
  (object.emitSection (.standard object.table true) id).toOption.bind fun emitted =>
    emitted.program.toOption.bind fun program => (program.relocated base resolve).toOption

/-- Relocated code comes from a program. -/
theorem Object.exists_of_relocatedCode {object : Object} {base : UInt64}
    {resolve : SymbolId → Option UInt64} {id : Nat} {code : List UInt8}
    (relocates : object.relocatedCode base resolve id = some code) :
    ∃ emitted program, object.emitSection (.standard object.table true) id = .ok emitted ∧
      emitted.program = .ok program ∧ program.relocated base resolve = .ok code := by
  obtain ⟨emitted, isEmitted, relocates⟩ := Option.bind_eq_some_iff.mp relocates
  obtain ⟨program, isProgram, relocates⟩ := Option.bind_eq_some_iff.mp relocates
  exact ⟨emitted, program, ok_of_toOption isEmitted, ok_of_toOption isProgram,
    ok_of_toOption relocates⟩

/-- An instruction whose operand counts from the instruction behind. -/
def loadAddress (target : Expr) : Instruction where
  name := "lea"
  bytes := [0x48, 0x8d, 0x05, 0, 0, 0, 0]
  operands := [⟨3, { expr := target, width := 32, ipRelative := true }⟩]

/-- Two loads of an import's address, a jump to it, and data with an EQU over it and with a label of
another section, which jumps to the import too. -/
def importer : Object where
  sections :=
    [{ name := ".text"
       chunks :=
        [{ body := .instruction (loadAddress ⟨-4, [⟨1, .symbol 1⟩]⟩), repeats := some (.ofInt 2) },
          { body := .branch (Machine.jmp ⟨16, [⟨1, .symbol 1⟩]⟩) },
          { body := .data [.field { expr := ⟨1, [⟨1, .symbol 2⟩]⟩, width := 64 },
              .field { expr := .ofSymbol 3, width := 32 }] }] },
      { name := ".init"
        chunks :=
          [{ body := .branch (Machine.jmp (.ofSymbol 1)) }, { body := .data [.bytes [0xc3]] }] }]
  table :=
    { symbols :=
        [{ name := "x", meaning := .imported },
          { name := "past", meaning := .equ ⟨3, [⟨1, .symbol 1⟩, ⟨1, .symbol 3⟩,
              ⟨-1, .place ⟨1, 0, 0⟩⟩]⟩ },
          { name := "done", meaning := .label ⟨1, 1, 0⟩ }] }

/-- Where the sections of `importer` are put. -/
def importerBases (id : Nat) : UInt64 := if id = 0 then 0x400000 else 0x500000

/-- The code of `importer` with its import at `0x600000`. -/
def importerCode : List UInt8 :=
  [0x48, 0x8d, 0x05, 0xf9, 0xff, 0x1f, 0x00, 0x48, 0x8d, 0x05, 0xf2, 0xff, 0x1f, 0x00,
    0xe9, 0xfd, 0xff, 0x1f, 0x00, 0x09, 0x00, 0x60, 0x00, 0x00, 0x00, 0x00, 0x00,
    0x05, 0x00, 0x50, 0x00]

/-- The relocated code of `importer` is its code with the import linked. -/
theorem importer_links_late :
    ∃ laid layouts linked linkedLayouts sect linkedEmitted linkedProgram,
      importer.layout = .ok (laid, layouts) ∧ (∀ layout ∈ layouts, layout.error = none) ∧
        laid.sections[0]? = some sect ∧ importer.Steady laid 0 ∧ 1 ∈ sect.references 0 ∧
        (∀ other ∈ sect.references 0, importer.Steady laid other) ∧
        (laid.rebased importerBases).Relocatable 0 (sect.rebase 0x400000) ∧
        (laid.rebased importerBases).relocatedCode 0x400000
          (importer.table.resolve fun _ => 0x600000) 0 = some importerCode ∧
        (importer.link fun _ => 0x600000).layout = .ok (linked, linkedLayouts) ∧
        (linked.rebased importerBases).emitSection (.standard linked.table false) 0 =
          .ok linkedEmitted ∧
        linkedEmitted.program = .ok linkedProgram ∧ linkedProgram.code = importerCode ∧
        linkedProgram.relocs = [] := by
  obtain ⟨⟨laid, layouts⟩, success, silent, steady, sect, found, refers, references, relocatable,
    relocates⟩ := exists_ok_of_any importer.layout
      (p := fun result => (∀ layout ∈ result.2, layout.error = none) ∧
        importer.Steady result.1 0 ∧ ∃ sect ∈ result.1.sections[0]?, 1 ∈ sect.references 0 ∧
          (∀ other ∈ sect.references 0, importer.Steady result.1 other) ∧
          (result.1.rebased importerBases).Relocatable 0 (sect.rebase 0x400000) ∧
          (result.1.rebased importerBases).relocatedCode 0x400000
            (importer.table.resolve fun _ => 0x600000) 0 = some importerCode)
      (by decide +kernel)
  obtain ⟨linked, linkedLayouts, linkedSuccess, agree⟩ :=
    late_linking_agrees success silent fun _ => 0x600000
  obtain ⟨emitted, program, emits, accepted, relocated⟩ :=
    Object.exists_of_relocatedCode relocates
  obtain ⟨linkedEmitted, linkedProgram, linkedEmits, linkedAccepted, same, none⟩ :=
    (agree 0 sect found steady).2 references importerBases emitted program importerCode
      relocatable emits accepted relocated false
  exact ⟨laid, layouts, linked, linkedLayouts, sect, linkedEmitted, linkedProgram, success, silent,
    found, steady, refers, references, relocatable, relocates, linkedSuccess, linkedEmits,
    linkedAccepted, same, none⟩

/-- The code of a section that is linked late. The object is laid out without an error, the section
has direct branches and is as relocating asks of it, and its program is relocated. -/
def Object.lateCode (object : Object) (address : String → UInt64) (id : Nat) :
    Option (List UInt8) :=
  object.layout.toOption.bind fun laid => (laid.1.sections[id]?).bind fun sect =>
    if (∀ layout ∈ laid.2, layout.error = none) ∧ sect.Direct object.table ∧
        laid.1.Relocatable id sect then
      laid.1.relocatedCode sect.base (object.table.resolve address) id
    else none

/-- The code of a section that is linked early. -/
def Object.earlyCode (object : Object) (address : String → UInt64) (id : Nat) :
    Option (List UInt8) :=
  (object.link address).layout.toOption.bind fun linked =>
    (linked.1.emitSection (.standard linked.1.table true) id).toOption.bind fun emitted =>
      emitted.program.toOption.map Program.code

/-- A section with one chunk, before a section that jumps as far past its own end as the address of
an import says. The symbols are the import, that end, and `- 2 ^ 63` times the import. -/
def besideJump (body : Body) : Object where
  sections :=
    [{ name := ".data", chunks := [{ body }] },
      { name := ".text"
        chunks := [{ body := .branch (Machine.jmp ⟨0, [⟨1, .symbol 1⟩, ⟨1, .symbol 2⟩]⟩) }] }]
  table :=
    { symbols :=
        [{ name := "x", meaning := .imported },
          { name := "behind", meaning := .label ⟨1, 1, 0⟩ },
          { name := "huge", meaning := .equ ⟨0, [⟨-2 ^ 63, .symbol 1⟩]⟩ }] }

/-- A field that holds where the jump ends. -/
def heldEnd : Body := .data [.field { expr := .ofSymbol 2, width := 32 }]

/-- A length in which the import counts `- 2 ^ 64` times. -/
def wrappedLength : Body := .reserve ⟨3, [⟨2, .symbol 3⟩]⟩ 1

/-- A field of nine bytes in which the import counts `- 2 ^ 64` times. -/
def wrappedField : Body := .data [.field { expr := ⟨0, [⟨2, .symbol 3⟩]⟩, width := 72 }]

/-- A field that was settled when its symbol was not yet imported. -/
def settledField : Body :=
  .data [.field { expr := .ofInt 0, symbol := some 1, width := 16, settled := true }]

/-- Late linking need not agree with early linking if a section refers to one that is not steady.
Nor need it if a count of imports wraps, in a length or in a field, or if a field was settled before
its symbol was imported. -/
theorem late_linking_differs :
    ((besideJump heldEnd).lateCode (fun _ => 0) 0 = some [5, 0, 0, 0] ∧
      (besideJump heldEnd).earlyCode (fun _ => 0) 0 = some [2, 0, 0, 0]) ∧
    ((besideJump wrappedLength).lateCode (fun _ => 1) 0 = some [0, 0, 0] ∧
      (besideJump wrappedLength).earlyCode (fun _ => 1) 0 = none) ∧
    ((besideJump wrappedField).lateCode (fun _ => 1) 0 = some [0, 0, 0, 0, 0, 0, 0, 0, 0] ∧
      (besideJump wrappedField).earlyCode (fun _ => 1) 0 =
        some [0, 0, 0, 0, 0, 0, 0, 0, 0xff]) ∧
    (besideJump settledField).lateCode (fun _ => 7) 0 = some [7, 0] ∧
      (besideJump settledField).earlyCode (fun _ => 7) 0 = some [0, 0] := by
  decide +kernel

end Assembler
