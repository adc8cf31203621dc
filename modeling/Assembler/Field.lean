import Assembler.Symbol.Table

/-!
# Fields

A field is an expression that is written into a fixed number of bits. Settling it against the
symbols leaves positions in its expression and at most one symbol, which a relocation has to add
later. A settled field stays as it is.
-/

namespace Assembler

/-- An expression for a fixed number of bits. -/
structure Field where
  expr : Expr
  /-- The symbol left for a relocation. -/
  symbol : Option SymbolId := none
  /-- The position subtracted from the value. -/
  origin : Option Location := none
  /-- The width in bits. -/
  width : UInt64 := 0
  signed : Bool := false
  /-- The value counts from the field's own position. -/
  ipRelative : Bool := false
  /-- The value is the displacement of a branch. -/
  jump : Bool := false
  /-- No range is checked. -/
  quiet : Bool := false
  line : Int := 0
  settled : Bool := false
deriving DecidableEq

namespace Field

/-- Whether the value needs neither a layout nor a relocation. -/
def isConstant (field : Field) : Bool :=
  field.expr.isConstant && field.symbol.isNone && field.origin.isNone

/-- The range that the value is held against. -/
def check (field : Field) : RangeCheck :=
  if field.quiet then .none else if field.signed then .signed else .unsigned

/-- Split an expanded expression into its positions and the one symbol left in it. -/
def split (source expanded : Expr) : Except Halt (Expr × Option SymbolId) :=
  expanded.terms.foldlM (fun (rest, symbol) term =>
    match term.base with
    | .place _ => .ok (rest.addTerm term, symbol)
    | .symbol id =>
      if symbol.isSome || term.coefficient ≠ 1 then .error (.problem (.tooComplex source))
      else .ok (rest, some id)) (Expr.ofInt expanded.constant, none)

/-- Resolve a field's expression against the symbols. `site` is the field's own position. -/
def settle (field : Field) (table : SymbolTable) (site : Location) : Except Halt Field := do
  if field.settled then return field
  let expanded ← table.expand field.expr
  let (expr, symbol) ← split field.expr expanded
  return { field with
    expr, symbol
    origin := if field.ipRelative && field.origin.isNone then some site else field.origin
    settled := true }

/-- Write a constant field into a buffer. -/
def write (field : Field) (buffer : List UInt8) (shift : UInt64) (check : RangeCheck) :
    List UInt8 × Option Error :=
  if field.isConstant then
    let (bytes, problem) := BitField.write buffer field.expr.constant field.width shift
      (if field.quiet then .none else check)
    (bytes, problem.map Error.bitField)
  else (buffer, some (.unresolved field.expr))

end Field

end Assembler
