import Assembler.Placement

/-!
# ELF executables

An executable has a file header, one program header and one segment, which holds the sections. The
addresses of imported symbols are given, and relocations are filled in from them.
-/

namespace Assembler

/-- How an executable is laid out. A zero number stands for the usual one. -/
structure Elf where
  /-- The address where the segment starts. The first section lies there if it is aligned. -/
  baseAddress : UInt64 := 0
  /-- Where the segment begins in the file. -/
  segmentOffset : UInt64 := 0
  segmentAlignment : UInt64 := 0
  /-- Which of execute (1), write (2) and read (4) the segment allows. -/
  segmentFlags : UInt32 := 0
  /-- The alignment of the sections. -/
  sectionAlign : UInt64 := 0
  /-- The label where execution starts; the base address when empty. -/
  entry : String := ""
  /-- The addresses of imported symbols. -/
  externs : List (String × UInt64) := []
deriving DecidableEq

namespace Elf

/-- The size of the file header. -/
def fileHeaderSize : Nat := 64

/-- The size of a program header. -/
def programHeaderSize : Nat := 56

/-- Put the usual numbers in place of zeros. -/
def withDefaults (config : Elf) : Elf :=
  { config with
    baseAddress := if config.baseAddress = 0 then 0x401000 else config.baseAddress
    segmentOffset := if config.segmentOffset = 0 then 0x1000 else config.segmentOffset
    segmentAlignment := if config.segmentAlignment = 0 then 0x1000 else config.segmentAlignment
    segmentFlags := if config.segmentFlags = 0 then 7 else config.segmentFlags
    sectionAlign := if config.sectionAlign = 0 then 16 else config.sectionAlign }

/-- What is wrong with the numbers of a segment. -/
def problem (config : Elf) : Option SegmentProblem :=
  let offset := config.segmentOffset
  let alignment := config.segmentAlignment
  let headers := UInt64.ofNat (fileHeaderSize + programHeaderSize)
  if offset < headers then some (.offsetTooSmall offset headers)
  else if alignment &&& (alignment - 1) ≠ 0 then some (.alignmentNotPower alignment)
  else if offset % alignment ≠ 0 then some (.offsetUnaligned offset alignment)
  else if config.baseAddress < offset then some (.baseBelowOffset config.baseAddress offset)
  else if (config.baseAddress - offset) % alignment ≠ 0 then
    some (.baseIncongruent config.baseAddress offset alignment)
  else if 0x7fffffffffffffff < offset then some (.offsetTooLarge offset)
  else none

/-- The low bytes of a number, lowest first. -/
def littleEndian : Nat → Nat → List UInt8
  | 0, _ => []
  | count + 1, value => UInt8.ofNat (value % 256) :: littleEndian count (value / 256)

/-- The header of the file, of an executable that starts at an address. -/
def fileHeader (entry : UInt64) : List UInt8 :=
  -- Magic number, 64 bits, lowest byte first, version.
  [0x7f, 0x45, 0x4c, 0x46, 2, 1, 1] ++ List.replicate 9 0 ++
    -- An executable for the x86-64, version.
    littleEndian 2 2 ++ littleEndian 2 62 ++ littleEndian 4 1 ++
    littleEndian 8 entry.toNat ++
    -- The program headers follow; there are no section headers.
    littleEndian 8 fileHeaderSize ++ littleEndian 8 0 ++ littleEndian 4 0 ++
    littleEndian 2 fileHeaderSize ++ littleEndian 2 programHeaderSize ++ littleEndian 2 1 ++
    List.replicate 6 0

/-- The header of the segment. -/
def programHeader (config : Elf) (fileSize memorySize : UInt64) : List UInt8 :=
  -- A segment to be loaded.
  littleEndian 4 1 ++ littleEndian 4 config.segmentFlags.toNat ++
    littleEndian 8 config.segmentOffset.toNat ++ littleEndian 8 config.baseAddress.toNat ++
    littleEndian 8 config.baseAddress.toNat ++ littleEndian 8 fileSize.toNat ++
    littleEndian 8 memorySize.toNat ++ littleEndian 8 config.segmentAlignment.toNat

/-- The address of an imported symbol. -/
def resolve (config : Elf) (table : SymbolTable) (id : SymbolId) : Option UInt64 :=
  config.externs.lookup (table.nameOf id)

/-- Check that every relocation's symbol has an address. -/
def checkRelocs (config : Elf) (table : SymbolTable) :
    List Reloc → Except Dangling (Option Error)
  | [] => .ok none
  | reloc :: rest => do
    let symbol ← table.get reloc.symbol
    if (config.resolve table reloc.symbol).isNone then return some (.noAddress symbol.name)
    else config.checkRelocs table rest

/-- Join programs into the content of the segment, each relocated and padded up to its section's
address. -/
def join (config : Elf) (table : SymbolTable) :
    List UInt8 → List (Section × Program) → Except Dangling (Except Error (List UInt8))
  | bytes, [] => .ok (.ok bytes)
  | bytes, (sect, program) :: rest =>
    if sect.noBits then config.join table bytes rest
    else do
      match ← config.checkRelocs table program.relocs with
      | some error => return .error error
      | none =>
        match program.relocated sect.base (config.resolve table) with
        | .error (.dangling reference) => .error reference
        | .error (.problem error) => return .error (.inSection sect.name error)
        | .ok code =>
          let padding := sect.base - config.baseAddress - UInt64.ofNat bytes.length
          config.join table (bytes ++ List.replicate padding.toNat 0 ++ code) rest

/-- The address where execution starts. -/
def entryAddress (config : Elf) (object : Object) : Except Dangling (Except Error UInt64) :=
  if config.entry.isEmpty then .ok (.ok config.baseAddress)
  else
    match object.table.find? config.entry with
    | none => .ok (.error (.missingEntry config.entry))
    | some id => do
      match ← object.symbolAddress id with
      | .ok address => return .ok address
      | .error error => return .error (.inEntry error)

/-- The file around the content of the segment, whose memory ends at an address. -/
def file (config : Elf) (entry memoryEnd : UInt64) (content : List UInt8) : List UInt8 :=
  let headers := fileHeader entry ++
    config.programHeader (UInt64.ofNat content.length) (memoryEnd - config.baseAddress)
  headers ++ List.replicate (config.segmentOffset.toNat - headers.length) 0 ++ content

/-- Place and emit an object as an executable. -/
def write (given : Elf) (object : Object) :
    Except Dangling (Object × Except Error (List UInt8)) := do
  let config := given.withDefaults
  match config.problem with
  | some problem => return (object, .error (.segment problem))
  | none =>
    match object.place config.baseAddress config.sectionAlign with
    | (placed, .error error) => return (placed, .error error)
    | (placed, .ok order) =>
      match ← placed.emitAll (Output.standard placed.table true) order with
      | (emitted, .error error) => return (emitted, .error error)
      | (emitted, .ok programs) =>
        let sections := order.filterMap fun id => emitted.sections[id]?
        match ← config.join emitted.table [] (sections.zip programs) with
        | .error error => return (emitted, .error error)
        | .ok content =>
          match ← config.entryAddress emitted with
          | .error error => return (emitted, .error error)
          | .ok entry =>
            let memoryEnd :=
              (sections.getLast?.map fun sect => sect.base + sect.size).getD config.baseAddress
            return (emitted, .ok (config.file entry memoryEnd content))

end Elf

end Assembler
