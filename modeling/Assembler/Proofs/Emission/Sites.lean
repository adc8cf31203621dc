import Assembler.Proofs.Emission.Parts

/-!
# The fields of a section

Every copy of a chunk has its fields at offsets of its own; `Section.sites` lists them for a whole
section, in the order in which they are emitted. A field with a symbol asks for a relocation, which
exists if its addend is a word (`Object.reloc?`). An emission that nothing stops has the relocations
of its sites, in their order, and no others (`relocs_of_emitSection`).
-/

namespace Assembler

variable {sect : Section} {id : Nat}

variable {site : FieldSite} {copy : CopySite} {emission : Emission}

/-- The fields of items and their offsets, the first item having an offset in its copy. -/
def DataItem.fieldsAt : UInt64 → List DataItem → List (UInt64 × Field)
  | _, [] => []
  | offset, .bytes content :: rest => fieldsAt (offset + size (.bytes content)) rest
  | offset, .field inner :: rest =>
    (offset, inner) :: fieldsAt (offset + size (.field inner)) rest

/-- The fields of a chunk and their offsets in a copy. A branch has the displacement of the form
that was chosen. -/
def Chunk.fieldsAt (chunk : Chunk) : List (UInt64 × Field) :=
  match chunk.body with
  | .data items => DataItem.fieldsAt 0 items
  | .leb128 integer => [(0, integer.value)]
  | .instruction code => code.operands.map fun operand => (operand.offset, operand.field)
  | .branch jump =>
    [(UInt64.ofNat (jump.opcode chunk.slot.near).length, jump.displacement chunk.slot.near)]
  | .reserve .. | .binary _ | .align _ | .org _ => []

/-- A field in a copy of a chunk. -/
structure FieldSite where
  copy : CopySite
  /-- The offset of the field from the start of the copy. -/
  offset : UInt64
  field : Field

/-- The position of a field. -/
def FieldSite.place (site : FieldSite) : Location :=
  ⟨site.copy.sectionId, site.copy.index, site.copy.offset + site.offset⟩

/-- The fields of a copy. -/
def CopySite.sites (copy : CopySite) : List FieldSite :=
  copy.chunk.fieldsAt.map fun entry => ⟨copy, entry.1, entry.2⟩

/-- The fields of the copies of a chunk, from a number on. -/
def Section.copySites (sect : Section) (id index : Nat) (chunk : Chunk) :
    Nat → Nat → List FieldSite
  | 0, _ => []
  | remaining + 1, number =>
    (sect.copySite id index chunk number).sites ++
      sect.copySites id index chunk remaining (number + 1)

/-- The fields of the chunk with a number. -/
def Section.chunkSites (sect : Section) (id index : Nat) : List FieldSite :=
  match sect.chunks[index]? with
  | none => []
  | some chunk => sect.copySites id index chunk chunk.count 0

/-- The fields of a section, in the order of emission. -/
def Section.sites (sect : Section) (id : Nat) : List FieldSite :=
  (List.range sect.chunks.length).flatMap (sect.chunkSites id)

/-- The fields of copies are those of each of them. -/
theorem Section.mem_copySites {index : Nat} {chunk : Chunk} {remaining first : Nat} :
    site ∈ sect.copySites id index chunk remaining first ↔
      ∃ number, first ≤ number ∧ number < first + remaining ∧
        site ∈ (sect.copySite id index chunk number).sites := by
  induction remaining generalizing first with
  | zero =>
    simp only [Section.copySites, List.not_mem_nil, false_iff, not_exists]
    omega
  | succ remaining ih =>
    rw [Section.copySites, List.mem_append, ih]
    constructor
    · rintro (here | ⟨number, lower, upper, later⟩)
      · exact ⟨first, Nat.le_refl _, by omega, here⟩
      · exact ⟨number, by omega, by omega, later⟩
    · rintro ⟨number, lower, upper, found⟩
      rcases Nat.eq_or_lt_of_le lower with rfl | later
      · exact .inl found
      · exact .inr ⟨number, later, by omega, found⟩

/-- The fields of a chunk are those of its copies. -/
theorem Section.mem_chunkSites {index : Nat} :
    site ∈ sect.chunkSites id index ↔ ∃ chunk, sect.chunks[index]? = some chunk ∧
      ∃ number < chunk.count, site ∈ (sect.copySite id index chunk number).sites := by
  rw [Section.chunkSites]
  cases chunkAt : sect.chunks[index]? with
  | none => simp
  | some chunk => simp [Section.mem_copySites]

/-- The fields of a section are those of the copies of its chunks. -/
theorem Section.mem_sites :
    site ∈ sect.sites id ↔ ∃ index chunk, sect.chunks[index]? = some chunk ∧
      ∃ number < chunk.count, site ∈ (sect.copySite id index chunk number).sites := by
  rw [Section.sites, List.mem_flatMap]
  refine exists_congr fun index => ?_
  rw [List.mem_range, Section.mem_chunkSites]
  refine and_iff_right_of_imp ?_
  rintro ⟨chunk, chunkAt, _⟩
  exact (List.getElem?_eq_some_iff.mp chunkAt).1

/-- The sites of a section lie in it. -/
theorem Section.sectionId_of_mem_sites
    (member : site ∈ sect.sites id) : site.copy.sectionId = id := by
  obtain ⟨index, chunk, _, number, _, found⟩ := Section.mem_sites.mp member
  obtain ⟨entry, _, rfl⟩ := List.mem_map.mp found
  rfl

namespace Object

/-- What the relocation of a field adds to its symbol: the value of its positions and, if the field
counts from a position, the way from there to the field. -/
def addend (object : Object) (site : FieldSite) : Except Dangling Int := do
  let sum ← object.address site.field.expr
  match site.field.origin with
  | none => return sum
  | some origin =>
    let start ← object.locationOffset site.place
    let counted ← object.locationOffset (site.copy.moveOrigin origin)
    return sum + (start - counted).toInt64.toInt

/-- Whether the addend of a field is a word. -/
def fitsAddend (object : Object) (site : FieldSite) : Bool :=
  (object.addend site).toOption.any isWord

/-- The relocation of a field: none if the field has no symbol, or an addend that is no word. -/
def reloc? (object : Object) (site : FieldSite) : Option Reloc := do
  let symbol ← site.field.symbol
  let offset ← (object.locationOffset site.place).toOption
  let addend ← (object.addend site).toOption
  if isWord addend then
    return {
      offset
      symbol
      addend := Int64.ofInt addend
      width := site.field.width
      pcRelative := site.field.ipRelative || site.field.origin.isSome
      signed := site.field.signed }
  else none

section

variable {object : Object} {table : SymbolTable}

/-- A field with a symbol has a relocation exactly if its addend is a word. -/
theorem reloc?_eq {symbol : SymbolId} {start : UInt64} {addend : Int}
    (known : site.field.symbol = some symbol)
    (placed : object.locationOffset site.place = .ok start)
    (added : object.addend site = .ok addend) :
    object.reloc? site =
      if isWord addend then
        some ⟨start, symbol, Int64.ofInt addend, site.field.width,
          site.field.ipRelative || site.field.origin.isSome, site.field.signed⟩
      else none := by
  simp only [reloc?, known, placed, added, Except.toOption]
  rfl

/-- An addend fits if it is a word. -/
theorem fitsAddend_eq {addend : Int} (added : object.addend site = .ok addend) :
    object.fitsAddend site = isWord addend := by
  rw [fitsAddend, added]
  rfl

/-- The standard output makes the relocation of a defined symbol whose addend is a word. An addend
that is none is reported as a value that overflows. -/
theorem relocate_cases (field : Field) (symbol : SymbolId) (offset : UInt64) :
    (isWord field.expr.constant = true ∧
      (Output.standard table true).relocate field symbol offset =
        .ok ⟨offset, symbol, Int64.ofInt field.expr.constant, field.width, field.ipRelative,
          field.signed⟩) ∨
    ∃ error, (Output.standard table true).relocate field symbol offset = .error error ∧
      (Cause.valueOverflow ∈ error.causes → isWord field.expr.constant = false) := by
  simp only [Output.standard]
  split
  · exact .inr ⟨_, rfl, by simp [Error.causes]⟩
  · split
    · exact .inr ⟨_, rfl, by simp [Error.causes]⟩
    · split
      · next wide => exact .inr ⟨_, rfl, fun _ => by simpa using wide⟩
      · next fits => exact .inl ⟨by simpa using fits, rfl⟩

/-- A report that stops no output is about a value that overflows, in a field that is no
displacement. -/
theorem report_quiet {field : Field} {error : Error}
    (quiet : (copy.report field error).severity.isError = false) :
    Cause.valueOverflow ∈ error.causes ∧ field.jump = false := by
  unfold CopySite.report at quiet
  dsimp only at quiet
  split at quiet
  · next overflow =>
    split at quiet
    · cases quiet
    · next other => exact ⟨overflow, by simpa using other⟩
  · cases quiet

/-- Asking for a relocation, without a report that stops the output, gives it exactly if the addend
is a word; the addend of a displacement always is. -/
theorem relocate_relocs {copy : CopySite} {field resolved : Field} {symbol : SymbolId}
    {offset : UInt64} {requests : List Request} {room : List UInt8} {emission : Emission}
    {addend : Int} (value : resolved.expr.constant = addend)
    (made : (match (Output.standard table true).relocate resolved symbol offset with
      | .ok reloc => { bytes := room, requests, relocs := [reloc] }
      | .error error =>
        { bytes := room, requests, diagnostics := [copy.report field error] }) = emission)
    (silent : emission.Silent) :
    emission.bytes = room ∧
    emission.relocs =
      (if isWord addend then
        some (⟨offset, symbol, Int64.ofInt addend, resolved.width, resolved.ipRelative,
          resolved.signed⟩ : Reloc)
      else none).toList ∧
    (field.jump = true → isWord addend = true) := by
  subst value
  rcases @relocate_cases table resolved symbol offset with
    ⟨fits, relocated⟩ | ⟨error, refused, overflow⟩
  · rw [relocated] at made
    subst made
    simp [fits]
  · rw [refused] at made
    subst made
    obtain ⟨wide, plain⟩ := report_quiet (silent _ List.mem_cons_self)
    simp [overflow wide, plain]

/-- A field with a symbol, in an emission that nothing stops. -/
theorem emitField_symbol {site : FieldSite} {symbol : SymbolId} {room : List UInt8}
    {emission : Emission}
    (emitted : object.emitField (.standard table true) site.copy site.offset site.field room =
      .ok emission) (silent : emission.Silent) (known : site.field.symbol = some symbol) :
    emission.bytes = room ∧ emission.relocs = (object.reloc? site).toList ∧
      (∃ start, object.locationOffset site.place = .ok start) ∧
      (∃ addend, object.addend site = .ok addend) ∧
      (site.field.jump = true → object.fitsAddend site = true) ∧
      ∀ origin ∈ site.field.origin, origin.sectionId = site.copy.sectionId := by
  unfold emitField at emitted
  obtain ⟨sum, value, emitted⟩ := exists_of_bind_ok emitted
  simp only [known] at emitted
  obtain ⟨start, placed, emitted⟩ := exists_of_bind_ok emitted
  obtain ⟨_, _, emitted⟩ := exists_of_bind_ok emitted
  have located : object.locationOffset site.place = .ok start := placed
  cases origin : site.field.origin with
  | none =>
    have added : object.addend site = .ok sum := by
      simp [addend, value, origin, bind, Except.bind, pure, Except.pure]
    simp only [origin, Option.map_none, pure, Except.pure, Except.ok.injEq] at emitted
    obtain ⟨bytes, relocs, fits⟩ := relocate_relocs rfl emitted silent
    refine ⟨bytes, ?_, ⟨start, located⟩, ⟨sum, added⟩, fun isJump => ?_, by simp⟩
    · rw [relocs, reloc?_eq known located added, origin, Option.isSome_none, Bool.or_false]
      rfl
    · rw [fitsAddend_eq added]
      exact fits isJump
  | some counted =>
    simp only [origin, Option.map_some] at emitted
    obtain ⟨reached, measured, emitted⟩ := exists_of_bind_ok emitted
    have added : object.addend site = .ok (sum + (start - reached).toInt64.toInt) := by
      simp [addend, value, origin, located, measured, bind, Except.bind, pure, Except.pure]
    split at emitted
    · cases emitted
      have quiet := report_quiet (silent _ (List.mem_singleton.mpr rfl))
      simp [Error.causes] at quiet
    · next here =>
      simp only [pure, Except.pure, Except.ok.injEq] at emitted
      obtain ⟨bytes, relocs, fits⟩ := relocate_relocs rfl emitted silent
      refine ⟨bytes, ?_, ⟨start, located⟩, ⟨_, added⟩, fun isJump => ?_, by simpa using here⟩
      · rw [relocs, reloc?_eq known located added, origin, Option.isSome_some, Bool.or_true]
        rfl
      · rw [fitsAddend_eq added]
        exact fits isJump

/-- A field without a symbol makes no relocation. -/
theorem emitField_relocs_of_none {output : Output} {offset : UInt64} {field : Field}
    {room : List UInt8} (emitted : object.emitField output copy offset field room = .ok emission)
    (absent : field.symbol = none) : emission.relocs = [] := by
  cases ofField_of_emitField emitted with
  | written | refused => rfl
  | relocated present => exact absurd absent present

/-- The relocations of an emission are those of the fields in it, and every displacement among the
fields has an addend that is a word. -/
structure Relocates (object : Object) (sites : List FieldSite) (emission : Emission) : Prop where
  relocs : emission.relocs = sites.filterMap object.reloc?
  placed : ∀ site ∈ sites, site.field.symbol.isSome = true →
    (∃ start, object.locationOffset site.place = .ok start) ∧
      ∃ addend, object.addend site = .ok addend
  jumps : ∀ site ∈ sites, site.field.symbol.isSome = true → site.field.jump = true →
    object.fitsAddend site = true

namespace Relocates

theorem of_empty {emission : Emission} (none : emission.relocs = []) :
    object.Relocates [] emission :=
  ⟨none, by simp, by simp⟩

/-- A field without a symbol asks for no relocation. -/
theorem of_absent {emission : Emission} (none : emission.relocs = [])
    (absent : site.field.symbol = Option.none) : object.Relocates [site] emission := by
  refine ⟨?_, ?_, ?_⟩
  · rw [none, List.filterMap_cons_none (by simp [reloc?, absent]), List.filterMap_nil]
  all_goals
    intro other member isSome
    rw [List.mem_singleton.mp member] at isSome
    simp [absent] at isSome

/-- Sites one behind the other ask for their relocations in order. -/
theorem append {first second : List FieldSite} {one other : Emission}
    (relocatesFirst : object.Relocates first one)
    (relocatesSecond : object.Relocates second other) :
    object.Relocates (first ++ second) (one.append other) where
  relocs := by
    rw [List.filterMap_append, ← relocatesFirst.relocs, ← relocatesSecond.relocs]
    rfl
  placed site member := by
    rcases List.mem_append.mp member with inFirst | inSecond
    · exact relocatesFirst.placed site inFirst
    · exact relocatesSecond.placed site inSecond
  jumps site member := by
    rcases List.mem_append.mp member with inFirst | inSecond
    · exact relocatesFirst.jumps site inFirst
    · exact relocatesSecond.jumps site inSecond

/-- What sites ask for is seen from the relocations. -/
theorem congr {sites : List FieldSite} {one other : Emission}
    (relocates : object.Relocates sites one) (same : other.relocs = one.relocs) :
    object.Relocates sites other :=
  ⟨same.trans relocates.relocs, relocates.placed, relocates.jumps⟩

/-- A field with a symbol makes a relocation exactly if its addend is a word. -/
theorem isSome_reloc? {sites : List FieldSite} (relocates : object.Relocates sites emission)
    (member : site ∈ sites) (isSome : site.field.symbol.isSome = true) :
    (object.reloc? site).isSome = object.fitsAddend site := by
  obtain ⟨symbol, known⟩ := Option.isSome_iff_exists.mp isSome
  obtain ⟨⟨start, placed⟩, addend, added⟩ := relocates.placed site member isSome
  rw [reloc?_eq known placed added, fitsAddend_eq added]
  cases isWord addend <;> rfl

end Relocates

/-- A field asks for the relocation of its site. -/
theorem emitField_relocates {offset : UInt64} {field : Field} {room : List UInt8}
    (emitted : object.emitField (.standard table true) copy offset field room = .ok emission)
    (silent : emission.Silent) : object.Relocates [⟨copy, offset, field⟩] emission := by
  have single : ∀ site : FieldSite, [site].filterMap object.reloc? = (object.reloc? site).toList :=
    fun site => by cases found : object.reloc? site <;> simp [found]
  cases known : field.symbol with
  | none => exact .of_absent (emitField_relocs_of_none emitted known) known
  | some symbol =>
    obtain ⟨_, relocs, placed, added, jumps, _⟩ :=
      @emitField_symbol object table ⟨copy, offset, field⟩ symbol room emission emitted silent known
    refine ⟨by rw [relocs, single], ?_, ?_⟩
    · intro site member _
      rw [List.mem_singleton.mp member]
      exact ⟨placed, added⟩
    · intro site member _ isJump
      rw [List.mem_singleton.mp member] at isJump ⊢
      exact jumps isJump

end

end Object

end Assembler
