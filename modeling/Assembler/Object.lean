import Assembler.Section.Layout

/-!
# Objects

An object owns the sections and the symbols of one assembly unit, and the reports of the work done
on it. Sections are known by their name and by their number, which counts from zero.
-/

namespace Assembler

/-- The sections and symbols of one assembly unit. -/
structure Object where
  /-- The limit on passes for each section; the number of spans decides when it is not positive. -/
  maxPasses : Int := 0
  sections : List Section := []
  table : SymbolTable := {}
  diagnostics : List Diagnostic := []
deriving DecidableEq

namespace Object

/-- The number of the section with a name. -/
def findSection? (object : Object) (name : String) : Option Nat :=
  object.sections.findIdx? fun sect => sect.name == name

/-- The number of the section with a name, which is created if it is new. -/
def openSection (object : Object) (name : String) : Object × Nat :=
  match object.findSection? name with
  | some id => (object, id)
  | none => ({ object with sections := object.sections ++ [{ name }] }, object.sections.length)

/-- The section with a number, or the dangling reference that the number is. -/
def getSection (object : Object) (id : Int) : Except Dangling Section :=
  match id with
  | .ofNat index =>
    match object.sections[index]? with
    | some sect => .ok sect
    | none => .error (.missingSection id)
  | .negSucc _ => .error (.missingSection id)

/-- Change the section with a number. -/
def modifySection (object : Object) (id : Nat) (change : Section → Section) : Object :=
  { object with sections := object.sections.modify id change }

/-- Append a chunk to a section. -/
def append (object : Object) (id : Nat) (body : Body) (line : Int)
    (repeats : Option Expr := none) : Object :=
  object.modifySection id fun sect => sect.append body line repeats

/-- The number of a symbol's name, which enters the table if it is new. -/
def symbol (object : Object) (name : String) : Object × SymbolId :=
  let (table, id) := object.table.intern name
  ({ object with table }, id)

/-- Give a name its meaning. -/
def define (object : Object) (name : String) (meaning : Meaning) (line : Int) :
    Object × SymbolId × Option Error :=
  let (table, id, error) := object.table.define name meaning line
  ({ object with table }, id, error)

/-- Bind a name to the position right before the next chunk of a section. -/
def defineLabel (object : Object) (id : Nat) (name : String) (line : Int) :
    Object × SymbolId × Option Error :=
  let place := ((object.sections[id]?).map fun sect => sect.here id).getD ⟨id, 0, 0⟩
  match object.define name (.label place) line with
  | (defined, symbol, none) =>
    (defined.modifySection id fun sect => { sect with pending := sect.pending ++ [symbol] },
      symbol, none)
  | refused => refused

/-- The offset in its section of a position. -/
def locationOffset (object : Object) (location : Location) : Except Dangling UInt64 := do
  return (← object.getSection location.sectionId).offsetOf location

/-- The address of a position. -/
def locationAddress (object : Object) (location : Location) : Except Dangling UInt64 := do
  let sect ← object.getSection location.sectionId
  return sect.base + sect.offsetOf location

/-- The address of a label. -/
def symbolAddress (object : Object) (id : SymbolId) : Except Dangling (Except Error UInt64) := do
  let symbol ← object.table.get id
  match symbol.meaning with
  | .label place => return .ok (← object.locationAddress place)
  | other => return .error (.notLabel symbol.name other.kind)

/-- The value of an expression whose terms are positions, each of which counts as its address. -/
def address (object : Object) (expr : Expr) : Except Dangling Int :=
  expr.terms.foldlM (fun sum term =>
    match term.base with
    | .place location => do
      return sum + (← object.locationAddress location).toNat * term.coefficient.toInt
    | .symbol _ => return sum) expr.constant

/-- Lay out the section with a number. -/
def layoutSection (object : Object) (id : Nat) : Except Dangling (Object × Layout) := do
  let sect ← object.getSection id
  let layout ← sect.layout object.table object.maxPasses id
  return ({ object with
      sections := object.sections.set id layout.sect
      diagnostics := object.diagnostics ++ layout.diagnostics }, layout)

/-- Lay out the sections with the numbers given. -/
def layoutSections (object : Object) : List Nat → Except Dangling (Object × List Layout)
  | [] => .ok (object, [])
  | id :: rest => do
    let (next, layout) ← object.layoutSection id
    let (last, layouts) ← next.layoutSections rest
    return (last, layout :: layouts)

/-- Lay out every section. One that fails does not stop the others. -/
def layout (object : Object) : Except Dangling (Object × List Layout) :=
  object.layoutSections (List.range object.sections.length)

/-- Whether a report stops the output. -/
def hasErrors (object : Object) : Bool := Diagnostic.anyError object.diagnostics

end Object

/-- The errors of a layout as one error. -/
def Layout.error (layout : Layout) : Option Error := Diagnostic.errors layout.diagnostics

end Assembler
