import Assembler.Machine.Encoding
import Assembler.Object

/-!
# Fragments

A fragment is a piece of a program that can be put into a section any number of times. Each time its
chunks are built anew, so that names it mentions enter the symbol table then.
-/

namespace Assembler

/-- How the body of a chunk is built: names enter the symbol table, and building may be refused. -/
abbrev Template := SymbolTable → SymbolTable × Except Error Body

namespace Template

/-- A body that needs no symbols. -/
def ofBody (body : Body) : Template := fun table => (table, .ok body)

/-- A body that mentions one name. -/
def ofName (name : String) (build : Expr → Except Error Body) : Template := fun table =>
  let (interned, id) := table.intern name
  (interned, build (Expr.ofSymbol id))

end Template

/-- A piece of a program. -/
inductive Fragment where
  | group (items : List Fragment)
  | label (name : String)
  /-- A chunk, with a repeat count if one is given. -/
  | put (template : Template) (repeats : Option Expr := none)
  /-- Everything inside gets a line, unless a fragment around gives it one. -/
  | atLine (line : Int) (inner : Fragment)

instance : Inhabited Fragment := ⟨.group []⟩

namespace Fragment

mutual

/-- Put a fragment into a section. Up to the first refusal everything stays put. -/
def emit (fragment : Fragment) (line : Option Int) (id : Nat) (object : Object) :
    Object × Option Error :=
  match fragment with
  | .group items => emitAll items line id object
  | .label name =>
    match object.defineLabel id name (line.getD 0) with
    | (defined, _, none) => (defined, none)
    | (refused, _, some error) => (refused, some (.inLabel name error))
  | .put template repeats =>
    match template object.table with
    | (table, .ok body) => ({ object with table }.append id body (line.getD 0) repeats, none)
    | (table, .error error) => ({ object with table }, some error)
  | .atLine inside inner => emit inner (some (line.getD inside)) id object

/-- Put fragments into a section one after the other. -/
def emitAll (fragments : List Fragment) (line : Option Int) (id : Nat) (object : Object) :
    Object × Option Error :=
  match fragments with
  | [] => (object, none)
  | first :: rest =>
    match emit first line id object with
    | (next, none) => emitAll rest line id next
    | refused => refused

end

/-- A jump to a label. -/
def jmp (label : String) : Fragment :=
  .put (Template.ofName label fun target => .ok (.branch (Machine.jmp target)))

/-- A jump to a label under a condition. -/
def jcc (condition : Machine.Condition) (label : String) : Fragment :=
  .put (Template.ofName label fun target => .ok (.branch (Machine.jcc condition target)))

/-- A call of a label. -/
def call (label : String) : Fragment :=
  .put (Template.ofName label fun target => .ok (.branch (Machine.call target)))

/-- A return. -/
def ret : Fragment := .put (Template.ofBody (.instruction Machine.ret))

/-- An instruction without effect of some length. -/
def nop (length : Int) : Fragment :=
  .put fun table => (table, (Machine.nop length).map Body.instruction)

/-- Load a register with a number. -/
def movImmediate (register : Machine.Register) (value : Int64) : Fragment :=
  .put fun table =>
    (table, (Machine.mov register { expr := Expr.ofInt value.toInt, signed := value < 0 }).map
      Body.instruction)

/-- Load a register with the address of a label. -/
def movAddress (register : Machine.Register) (label : String) : Fragment :=
  .put (Template.ofName label fun target =>
    (Machine.mov register { expr := target }).map Body.instruction)

/-- Padding up to a multiple of a boundary, filled with instructions without effect. -/
def alignCode (boundary : UInt64) : Fragment :=
  .put (Template.ofBody (.align (Machine.alignCode boundary)))

end Fragment

end Assembler
