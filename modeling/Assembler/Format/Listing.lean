import Assembler.Placement

/-!
# Listings

A listing shows every chunk with its address, its first bytes and its labels, and then the
relocations that are left.
-/

namespace Assembler

/-- How a listing places the sections. -/
structure Listing where
  /-- The address from which on sections are placed. -/
  origin : UInt64 := 0
  /-- The alignment of the sections; zero stands for one. -/
  sectionAlign : UInt64 := 0
deriving DecidableEq

namespace Listing

/-- The number of bytes shown of a chunk. -/
def shownBytes : Nat := 8

/-- The first bytes of a chunk, with dots for the rest. -/
def bytesText (bytes : List UInt8) : String :=
  " ".intercalate ((bytes.take shownBytes).map fun byte => Text.hexPadded 2 byte.toNat) ++
    (if shownBytes < bytes.length then "..." else "")

/-- What a chunk is. -/
def bodyText (chunk : Chunk) : String :=
  match chunk.body with
  | .instruction code => code.name
  | .branch jump => jump.name ++ (if chunk.slot.near then " near" else " short")
  | .binary part => "incbin " ++ Text.quote part.name
  | body => body.kind.text

/-- How often a chunk is repeated. A count that is no plain number is marked. -/
def copiesText (chunk : Chunk) : String :=
  let copies := " x" ++ toString chunk.slot.copies.toInt
  if (chunk.repeats.map fun count => !count.isConstant).getD false then copies ++ " (deferred)"
  else if chunk.slot.copies ≠ 1 then copies
  else ""

/-- The lines of labels. -/
def labelLines (table : SymbolTable) (labels : List SymbolId) : String :=
  String.join (labels.map fun id => table.nameOf id ++ ":\n")

/-- The lines of a chunk. -/
def chunkLines (table : SymbolTable) (sect : Section) (code : List UInt8) (chunk : Chunk) :
    String :=
  let bytes :=
    if sect.noBits then []
    else (code.drop chunk.slot.offset.toNat).take chunk.slot.total.toNat
  labelLines table chunk.labels ++ "  " ++
    Text.hexPadded 8 (sect.base + chunk.slot.offset).toNat ++ "  " ++
    Text.padRight ' ' (shownBytes * 3 + 3) (bytesText bytes) ++ "  " ++ bodyText chunk ++
    copiesText chunk ++
    (if 0 < chunk.line then "  ; line " ++ toString chunk.line else "") ++ "\n"

/-- The line of a relocation. -/
def relocLine (table : SymbolTable) (sect : Section) (reloc : Reloc) : Except Dangling String := do
  let symbol ← table.get reloc.symbol
  return "  reloc " ++ Text.hexPadded 8 (sect.base + reloc.offset).toNat ++ "  " ++ symbol.name ++
    Text.signedDecimal reloc.addend.toInt ++ "  " ++
    (if reloc.pcRelative then "pcrel" else "abs") ++
    toString reloc.width.toNat ++ "\n"

/-- The lines of a section. -/
def sectionLines (table : SymbolTable) (sect : Section) (program : Program) :
    Except Dangling String := do
  let relocs ← program.relocs.mapM (relocLine table sect)
  return "section " ++ sect.name ++ " base=" ++ Text.hexNumber sect.base.toNat ++ " size=" ++
    toString sect.size.toNat ++ (if sect.noBits then " nobits" else "") ++ " passes=" ++
    toString sect.stats.passes ++ " spans=" ++ toString sect.stats.spans ++ "\n" ++
    String.join (sect.chunks.map (chunkLines table sect program.code)) ++
    labelLines table sect.pending ++ String.join relocs

/-- Place and emit an object, and list it. -/
def write (listing : Listing) (object : Object) :
    Except Dangling (Object × Except Error String) := do
  let alignment := if listing.sectionAlign = 0 then 1 else listing.sectionAlign
  match object.place listing.origin alignment with
  | (placed, .error error) => return (placed, .error error)
  | (placed, .ok order) =>
    match ← placed.emitAll (Output.standard placed.table true) order with
    | (emitted, .error error) => return (emitted, .error error)
    | (emitted, .ok programs) =>
      let sections := order.filterMap fun id => emitted.sections[id]?
      let parts ← (sections.zip programs).mapM fun (sect, program) =>
        sectionLines emitted.table sect program
      return (emitted, .ok ("\n".intercalate parts))

end Listing

end Assembler
