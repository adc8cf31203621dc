import Assembler.Object

/-!
# Emission

Emission turns the chunks of a section that was laid out into bytes. The value of a field is found
from the offsets and the bases of the sections; an `Output` then writes the field, or makes a
relocation when a symbol is left in it. What the chunks hold is not changed, so a second emission
gives the same bytes.
-/

namespace Assembler

/-- How fields get into the emitted bytes. -/
structure Output where
  /-- Write a field that is a constant into the bytes given. -/
  write : Field → List UInt8 → RangeCheck → List UInt8 × Option Error
  /-- The relocation for a field whose constant is the addend of a symbol, at an offset of the
  section. -/
  relocate : Field → SymbolId → UInt64 → Except Error Reloc

/-- The output that writes fields in place. References to symbols become relocations, if those are
allowed; the field is left zero then. -/
def Output.standard (table : SymbolTable) (allowRelocs : Bool) : Output where
  write field room check := field.write room 0 check
  relocate field symbol offset :=
    let name := table.nameOf symbol
    if ((table.get? symbol).map Symbol.meaning).getD .undefined = .undefined then
      .error (.undefinedSymbol name)
    else if !allowRelocs then .error (.relocUnsupported name)
    else if !isWord field.expr.constant then .error (.wideAddend field.expr.constant)
    else
      .ok
        { offset
          symbol
          addend := Int64.ofInt field.expr.constant
          width := field.width
          pcRelative := field.ipRelative
          signed := field.signed }

/-- A field as an output was asked to write it. -/
structure Request where
  /-- The field with its value. -/
  field : Field
  /-- The symbol to relocate against; none when the field is written in place. -/
  symbol : Option SymbolId
  place : Location
  check : RangeCheck
  /-- The number of bytes given. -/
  room : Nat
deriving DecidableEq

/-- Emitted bytes, with what came up on the way. -/
structure Emission where
  bytes : List UInt8 := []
  requests : List Request := []
  relocs : List Reloc := []
  diagnostics : List Diagnostic := []
deriving DecidableEq

namespace Emission

/-- One emission behind another. -/
def append (first second : Emission) : Emission where
  bytes := first.bytes ++ second.bytes
  requests := first.requests ++ second.requests
  relocs := first.relocs ++ second.relocs
  diagnostics := first.diagnostics ++ second.diagnostics

/-- Bytes that nothing came up with. -/
def ofBytes (bytes : List UInt8) : Emission := { bytes }

end Emission

/-- The copy of a chunk that is being emitted. -/
structure CopySite where
  sectionId : Nat
  sectionName : String
  index : Nat
  chunk : Chunk
  /-- The offset of the copy from the chunk's start. -/
  offset : UInt64

namespace CopySite

/-- The report of an error with a field: one that does not fit is cut off with a warning, unless it
is a branch's displacement. -/
def report (site : CopySite) (field : Field) (error : Error) : Diagnostic :=
  let line := if field.line = 0 then site.chunk.line else field.line
  if Cause.valueOverflow ∈ error.causes then
    if field.jump then
      { severity := .error
        line
        sectionName := site.sectionName
        error := .branchOutOfRange error }
    else { severity := .warning, line, sectionName := site.sectionName, error }
  else { severity := .error, line, sectionName := site.sectionName, error }

/-- A position that is subtracted moves with the copy when it is in the same chunk. -/
def moveOrigin (site : CopySite) (origin : Location) : Location :=
  if origin.sectionId = site.sectionId && origin.index = site.index then
    { origin with offset := origin.offset + site.offset }
  else origin

end CopySite

namespace Object

/-- Emit a field that has a place in the copy and the bytes given. -/
def emitField (object : Object) (output : Output) (site : CopySite) (offset : UInt64)
    (field : Field) (room : List UInt8) : Except Dangling Emission := do
  let origin := field.origin.map site.moveOrigin
  let place : Location := ⟨site.sectionId, site.index, site.offset + offset⟩
  let sum ← object.address field.expr
  match field.symbol with
  | none =>
    let subtracted ←
      match origin with
      | none => pure 0
      | some location => object.locationAddress location
    let resolved :=
      { field with expr := Expr.ofInt (sum - subtracted.toNat), origin := none }
    let (bytes, error) := output.write resolved room field.check
    return {
      bytes
      requests := [⟨resolved, none, place, field.check, room.length⟩]
      diagnostics := (error.map (site.report field)).toList }
  | some symbol =>
    let start ← object.locationOffset place
    let _ ← object.table.get symbol
    let relocate (resolved : Field) : Emission :=
      let requests := [⟨resolved, some symbol, place, field.check, room.length⟩]
      match output.relocate resolved symbol start with
      | .ok reloc => { bytes := room, requests, relocs := [reloc] }
      | .error error => { bytes := room, requests, diagnostics := [site.report field error] }
    match origin with
    | none => return relocate { field with expr := Expr.ofInt sum }
    | some location =>
      let delta := (start - (← object.locationOffset location)).toInt64
      if location.sectionId ≠ site.sectionId then
        return { bytes := room, diagnostics := [site.report field .foreignOrigin] }
      else
        return relocate
          { field with expr := Expr.ofInt (sum + delta.toInt), origin, ipRelative := true }

/-- Emit the items of data, the first of which has an offset in the copy. -/
def emitItems (object : Object) (output : Output) (site : CopySite) :
    UInt64 → List DataItem → Except Dangling Emission
  | _, [] => .ok {}
  | offset, .bytes bytes :: rest => do
    let others ← object.emitItems output site (offset + DataItem.size (.bytes bytes)) rest
    return (Emission.ofBytes bytes).append others
  | offset, .field field :: rest => do
    let size := DataItem.size (.field field)
    let first ← object.emitField output site offset field (List.replicate size.toNat 0)
    return first.append (← object.emitItems output site (offset + size) rest)

/-- Write operands into the encoding of an instruction. An operand that passed its check and does
not lie inside the encoding has an offset that counts back from the last word, so that its bytes
would start before the first one. -/
def emitOperands (object : Object) (output : Output) (site : CopySite) :
    List UInt8 → List Operand → Except Dangling Emission
  | bytes, [] => .ok (Emission.ofBytes bytes)
  | bytes, operand :: rest =>
    let start := operand.offset.toNat
    let size := (operand.field.width / 8).toNat
    if bytes.length < start + size then .error (.bytesBefore operand.offset.toInt64)
    else do
      let room := (bytes.drop start).take size
      let written ← object.emitField output site operand.offset operand.field room
      let patched := bytes.take start ++ written.bytes ++ bytes.drop (start + size)
      let others ← object.emitOperands output site patched rest
      return ({ written with bytes := [] } : Emission).append others

/-- Emit the form of a branch that the layout chose. -/
def emitBranch (object : Object) (output : Output) (site : CopySite) (branch : Branch)
    (near : Bool) : Except Dangling Emission := do
  let opcode := if near then branch.near else branch.short.getD []
  let width := if near then branch.nearWidth else 8
  let length := if near then branch.nearLength else branch.shortLength
  let field :=
    { branch.target with width, expr := branch.target.expr.addInt (-length.toInt64).toInt }
  let displacement ← object.emitField output site (UInt64.ofNat opcode.length) field
    (List.replicate (width / 8).toNat 0)
  return (Emission.ofBytes opcode).append displacement

/-- Emit an integer in groups of seven bits, padded to the length that the layout chose. -/
def emitInteger (object : Object) (site : CopySite) (integer : VariableInteger) :
    Except Dangling (Emission × Option Error) := do
  let value ← object.address integer.value.expr
  let diagnostics : List Diagnostic :=
    if !integer.signed && value < 0 then
      [{ severity := .warning
         line := integer.value.line
         sectionName := site.sectionName
         error := .negativeUnsigned value }]
    else []
  match Leb128.encodePadded value integer.signed site.chunk.slot.length.toInt64.toInt with
  | .ok bytes => return ({ bytes, diagnostics }, none)
  | .error problem => return ({ diagnostics }, some (.lengthMismatch (.leb128 problem)))

end Object

/-- The bytes of an alignment of some length: the longest fill sequence over and over, then the one
that fits what is left. -/
def Align.fillBytes (align : Align) (length : Nat) : List UInt8 :=
  match align.codeFill with
  | [] => List.replicate length align.fill
  | sequences =>
    let longest := sequences.length - 1
    let rest := length % longest
    (List.replicate (length / longest) (sequences[longest]?.getD [])).flatten ++
      (if rest = 0 then [] else sequences[rest]?.getD [])

namespace Object

/-- Emit one copy of a chunk. The error, if there is one, breaks a promise of the layout. -/
def emitCopy (object : Object) (output : Output) (site : CopySite) :
    Except Dangling (Emission × Option Error) := do
  let length := site.chunk.slot.length.toNat
  let (emission, error) ←
    match site.chunk.body with
    | .data items => do pure (← object.emitItems output site 0 items, none)
    | .leb128 integer => object.emitInteger site integer
    | .reserve .. => pure (Emission.ofBytes (List.replicate length 0), none)
    | .binary part => pure (Emission.ofBytes ((part.data.drop part.skip).take length), none)
    | .align padding => pure (Emission.ofBytes (padding.fillBytes length), none)
    | .org padding => pure (Emission.ofBytes (List.replicate length padding.fill), none)
    | .instruction code => do
      pure (← object.emitOperands output site code.bytes code.operands, none)
    | .branch jump => do pure (← object.emitBranch output site jump site.chunk.slot.near, none)
  match error with
  | some error => return (emission, some error)
  | none =>
    if emission.bytes.length = length then return (emission, none)
    else
      return (emission, some (.wrongLength site.chunk.kind site.index emission.bytes.length
        site.chunk.slot.length))

/-- Emit the copies of a chunk from a number on, up to the first that breaks a promise. -/
def emitCopies (object : Object) (output : Output) (sect : Section) (sectionId index : Nat)
    (chunk : Chunk) : Nat → Nat → Except Dangling Emission
  | 0, _ => .ok {}
  | remaining + 1, number => do
    let site : CopySite :=
      ⟨sectionId, sect.name, index, chunk, UInt64.ofNat number * chunk.slot.length⟩
    match ← object.emitCopy output site with
    | (emission, none) =>
      return emission.append
        (← object.emitCopies output sect sectionId index chunk remaining (number + 1))
    | (emission, some error) =>
      return { emission with
        diagnostics := emission.diagnostics ++
          [{ severity := .internal, line := chunk.line, sectionName := sect.name, error }] }

/-- Emit a chunk of a section that was laid out. -/
def emitChunk (object : Object) (output : Output) (sectionId index : Nat) :
    Except Dangling (Except Error Emission) := do
  let sect ← object.getSection sectionId
  match sect.chunks[index]? with
  | none => return .ok {}
  | some chunk =>
    if !sect.laidOut then return .error (.notLaidOut sect.name)
    else
      match chunk.slot.error with
      | some error => return .error (.chunkFailed index error)
      | none =>
        return .ok
          (← object.emitCopies output sect sectionId index chunk chunk.slot.copies.toInt.toNat 0)

/-- Emit the chunks with the numbers given. In a section without bytes of its own, data gets a
warning. -/
def emitChunks (object : Object) (output : Output) (sect : Section) (sectionId : Nat) :
    List Nat → Except Dangling Emission
  | [] => .ok {}
  | index :: rest => do
    let emission ←
      match ← object.emitChunk output sectionId index with
      | .ok emission => pure emission
      | .error _ => pure {}
    let ignored : List Diagnostic :=
      match sect.chunks[index]? with
      | none => []
      | some chunk =>
        if sect.noBits && !emission.bytes.isEmpty &&
            (chunk.kind.role = .none || chunk.kind.role = .instruction) then
          [{ severity := .warning
             line := chunk.line
             sectionName := sect.name
             error := .ignoredData chunk.kind }]
        else []
    let others ← object.emitChunks output sect sectionId rest
    let reported : Emission := { emission with diagnostics := emission.diagnostics ++ ignored }
    return reported.append others

/-- The result of emitting a section: the object with the reports and relocations, the fields that
were written, and the program unless a report stops it. -/
structure Emitted where
  object : Object
  requests : List Request := []
  program : Except Error Program

/-- Emit a section. One that was not laid out, or could not be, is refused. -/
def emitSection (object : Object) (output : Output) (id : Nat) : Except Dangling Emitted := do
  let sect ← object.getSection id
  if !sect.laidOut then return { object, program := .error (.notLaidOut sect.name) }
  else if sect.failed then return { object, program := .error (.sectionFailed sect.name) }
  else
    let emission ← object.emitChunks output sect id (List.range sect.chunks.length)
    let relocs := Reloc.insertAll emission.relocs sect.relocs
    let emitted : Object :=
      { object.modifySection id fun sect => { sect with relocs } with
        diagnostics := object.diagnostics ++ emission.diagnostics }
    return {
      object := emitted
      requests := emission.requests
      program :=
        match Diagnostic.errors emission.diagnostics with
        | some error => .error error
        | none =>
          if sect.noBits then
            .ok { name := sect.name, code := [], relocs
                  reserved := UInt64.ofNat emission.bytes.length }
          else .ok { name := sect.name, code := emission.bytes, relocs } }

end Object

end Assembler
