import Assembler.Description.Basic
import Assembler.Formula.Basic
import Assembler.Fragment
import Assembler.Text.Lowercase
import Assembler.Workspace

/-!
# From descriptions to objects

Building adds the imported symbols, then the EQUs in the order of their names, then the items of
every section in order. It stops at the first item that makes no sense; what was added before stays.
-/

namespace Assembler

/-- Why a description could not be built. -/
inductive BuildError where
  | assembly (error : Error)
  | formula (source : String) (problem : Formula.Problem)
  | file (problem : FileProblem)
  | itemKinds (kinds : List ItemKind)
  | repeatedLabel (name : String)
  | byteRange (value : Int)
  | unknownForm (name : String)
  | shortCall
  | inImport (inner : Error)
  | inEqu (name : String) (inner : BuildError)
  | inItem (sectionName : String) (index : Nat) (inner : BuildError)
  | inKind (kind : ItemKind) (inner : BuildError)
  | inTimes (inner : BuildError)
deriving DecidableEq

namespace BuildError

/-- The wording of a build error. -/
def message : BuildError → String
  | .assembly error => error.message
  | .formula source problem => problem.message source
  | .file problem => problem.message
  | .itemKinds kinds =>
    "item must have exactly one kind, has [" ++ " ".intercalate (kinds.map ItemKind.text) ++ "]"
  | .repeatedLabel name => "label " ++ Text.quote name ++ " cannot repeat"
  | .byteRange value => "byte " ++ toString value ++ " out of range"
  | .unknownForm name => "unknown branch form " ++ Text.quote name
  | .shortCall => "call has no short form"
  | .inImport inner => "extern: " ++ inner.message
  | .inEqu name inner => "equ " ++ name ++ ": " ++ inner.message
  | .inItem sectionName index inner =>
    "section " ++ sectionName ++ " item " ++ toString index ++ ": " ++ inner.message
  | .inKind kind inner => kind.text ++ ": " ++ inner.message
  | .inTimes inner => "times: " ++ inner.message

/-- The causes of a build error. -/
def causes : BuildError → List Cause
  | .assembly error | .inImport error => error.causes
  | .formula _ problem => problem.causes
  | .inEqu _ inner | .inItem _ _ inner | .inKind _ inner | .inTimes inner => inner.causes
  | .file _ | .itemKinds _ | .repeatedLabel _ | .byteRange _ | .unknownForm _ | .shortCall => []

end BuildError

/-- The files that a description may include. -/
abbrev FileReader := String → Except FileProblem (List UInt8)

/-- The path of the file that an item includes, which counts from a directory. -/
def Item.binaryPath (item : Item) (directory : String) : String :=
  if Text.Path.isAbsolute item.incbin || directory.isEmpty then item.incbin
  else Text.Path.join directory item.incbin

/-- A step of building, in which names enter the symbol table. -/
abbrev Building := ExceptT BuildError (StateM SymbolTable)

namespace Building

/-- The expression that a formula stands for. -/
def expr (source : String) (place : Option Location) : Building Expr := fun table =>
  match (Formula.ofText source).eval (SymbolTable.scope place) table with
  | (next, .ok value) => (.ok value, next)
  | (next, .error problem) => (.error (.formula source problem), next)

/-- The expression of a formula that may be absent, which it is when empty. -/
def optionalExpr (source : String) (place : Option Location) : Building (Option Expr) :=
  if source.isEmpty then return none else return some (← expr source place)

/-- An instruction that may be refused. -/
def encoded {α : Type} (result : Except Error α) : Building α :=
  match result with
  | .ok value => return value
  | .error error => throw (.assembly error)

/-- The form that a text names; capitals do not matter. -/
def form (name : String) : Building Form :=
  let lower := Text.lower name
  if lower.isEmpty || lower = "auto" then return .auto
  else if lower = "short" then return .short
  else if lower = "near" then return .near
  else throw (.unknownForm name)

/-- Raw bytes, each of which may be signed or unsigned. -/
def rawBytes : List Int → Building (List UInt8)
  | [] => return []
  | value :: rest =>
    if value < -128 || 255 < value then throw (.byteRange value)
    else return UInt8.ofInt value :: (← rawBytes rest)

/-- The values of data. -/
def dataItems (item : Item) (place : Option Location) : List String → Building (List DataItem)
  | [] => return []
  | source :: rest => do
    let value ← expr source place
    let width := if item.size = 0 then 8 else item.size
    let field : Field := { expr := value, width, signed := item.signed, line := item.line }
    return .field field :: (← dataItems item place rest)

/-- The part of a file. -/
def binary (read : FileReader) (directory : String) (item : Item) (place : Option Location) :
    Building Binary := do
  match read (item.binaryPath directory) with
  | .error problem => throw (.file problem)
  | .ok data =>
    return {
      name := item.incbin
      data
      start := ← optionalExpr item.start place
      maxLength := ← optionalExpr item.maxLength place }

/-- A jump or call, whose target has the item's line. -/
def branch (item : Item) (place : Option Location) (source : String)
    (encode : Expr → Form → Building Branch) : Building Body := do
  let form ← form item.form
  let target ← expr source place
  let jump ← encode target form
  return .branch { jump with target := { jump.target with line := item.line } }

/-- The body of the chunk that an item of a kind describes. `place` is where the chunk will be. -/
def body (read : FileReader) (directory : String) (item : Item) (place : Option Location) :
    ItemKind → Building Body
  | .label => return .data []
  | .bytes => return .data [.bytes (← rawBytes (item.bytes.getD []))]
  | .string => return .data [.bytes item.string.toUTF8.data.toList]
  | .data => return .data (← dataItems item place (item.data.getD []))
  | .leb128 => return .leb128 { number := ← expr item.leb128 place, signed := item.signed }
  | .reserve => do
    let count ← expr item.reserve place
    return .reserve count (if item.itemSize = 0 then 1 else item.itemSize)
  | .incbin => return .binary (← binary read directory item place)
  | .align => do
    let maxSkip ← optionalExpr item.maxSkip place
    return .align
      { boundary := Expr.ofInt item.align.toInt64.toInt
        fill := item.fill.getD 0
        maxSkip
        codeFill := if item.code then Machine.nops else [] }
  | .org =>
    return .org
      { start := Expr.ofInt (item.org.getD 0).toInt64.toInt, fill := item.fill.getD 0 }
  | .jmp => branch item place item.jmp fun target form => return Machine.jmp target form
  | .jcc => branch item place item.jcc fun target form => do
    let condition ← encoded (Machine.Condition.ofName (Text.lower item.condition))
    return Machine.jcc condition target form
  | .call => branch item place item.call fun target form =>
    if form = .short then throw .shortCall else return Machine.call target
  | .ret => return .instruction Machine.ret
  | .nop => return .instruction (← encoded (Machine.nop item.nop))
  | .movImm => do
    let load := item.movImm.getD {}
    let register ← encoded (Machine.Register.ofName load.register)
    let value ← expr load.value place
    return .instruction (← encoded (Machine.mov register
      { expr := value
        line := item.line
        signed := item.signed || (value.isConstant && value.constant < 0) }))

/-- The chunk that an item of a kind describes, with its repeat count. -/
def chunk (read : FileReader) (directory : String) (item : Item) (place : Option Location)
    (kind : ItemKind) : Building (Body × Option Expr) := fun table =>
  match body read directory item place kind table with
  | (.error error, next) => (.error (.inKind kind error), next)
  | (.ok described, next) =>
    match optionalExpr item.times place next with
    | (.error error, last) => (.error (.inTimes error), last)
    | (.ok repeats, last) => (.ok (described, repeats), last)

end Building

namespace Object

/-- Add an item to a section. -/
def addItem (object : Object) (read : FileReader) (directory : String) (id : Nat) (item : Item) :
    Object × Option BuildError :=
  match item.kinds with
  | [.label] =>
    if !item.times.isEmpty then (object, some (.repeatedLabel item.label))
    else
      let (next, _, error) := object.defineLabel id item.label item.line
      (next, error.map .assembly)
  | [kind] =>
    let place := (object.sections[id]?).map fun sect => sect.here id
    match Building.chunk read directory item place kind object.table with
    | (.error error, table) => ({ object with table }, some error)
    | (.ok (body, repeats), table) =>
      ({ object with table }.append id body item.line repeats, none)
  | kinds => (object, some (.itemKinds kinds))

/-- Add the items of a section, the first of which has the number given. -/
def addItems (object : Object) (read : FileReader) (directory : String) (id : Nat)
    (sectionName : String) : Nat → List Item → Object × Option BuildError
  | _, [] => (object, none)
  | index, item :: rest =>
    match object.addItem read directory id item with
    | (next, none) => next.addItems read directory id sectionName (index + 1) rest
    | (next, some error) => (next, some (.inItem sectionName index error))

/-- Add described sections. Those of one name are one section. -/
def addSections (object : Object) (read : FileReader) (directory : String) :
    List DescribedSection → Object × Option BuildError
  | [] => (object, none)
  | described :: rest =>
    let (opened, id) := object.openSection described.name
    let marked := opened.modifySection id fun sect =>
      { sect with noBits := sect.noBits || described.noBits }
    match marked.addItems read directory id described.name 0 described.items with
    | (next, none) => next.addSections read directory rest
    | refused => refused

/-- Add imported symbols. -/
def addImports (object : Object) : List Import → Object × Option BuildError
  | [] => (object, none)
  | entry :: rest =>
    match object.define entry.name .imported 0 with
    | (next, _, none) => next.addImports rest
    | (next, _, some error) => (next, some (.inImport error))

/-- Add EQUs. -/
def addEqus (object : Object) : List (String × String) → Object × Option BuildError
  | [] => (object, none)
  | (name, source) :: rest =>
    match Building.expr source none object.table with
    | (.error error, table) => ({ object with table }, some (.inEqu name error))
    | (.ok value, table) =>
      match { object with table }.define name (.equ value) 0 with
      | (next, _, none) => next.addEqus rest
      | (next, _, some error) => (next, some (.inEqu name (.assembly error)))

end Object

/-- The paths of the files that a description may include. -/
def Description.binaryPaths (description : Description) (directory : String) : List String :=
  ((description.sections.flatMap DescribedSection.items).filter fun item =>
    !item.incbin.isEmpty).map fun item => item.binaryPath directory

/-- Add everything that a description describes to an object. Relative paths in it count from the
directory given. -/
def Description.build (description : Description) (read : FileReader) (directory : String)
    (object : Object) : Object × Option BuildError :=
  match object.addImports description.imports with
  | (imported, none) =>
    match imported.addEqus description.sortedEqus with
    | (defined, none) => defined.addSections read directory description.sections
    | refused => refused
  | refused => refused

end Assembler
