import Assembler.Chunk.Basic
import Assembler.Span

/-!
# Before the relaxation

Preparing a chunk settles its fields, finds its repeat count and measures its shortest form. Lengths
and counts that depend on distances start at their least and register spans. A chunk that cannot be
prepared keeps the fields that were settled before the problem.
-/

namespace Assembler

/-- The fields of data, settled one after the other up to the first that cannot be. -/
def settleItems (table : SymbolTable) (sectionId index : Nat) :
    UInt64 → List DataItem → List DataItem × Option Halt
  | _, [] => ([], none)
  | offset, .bytes bytes :: rest =>
    let (settled, halt) := settleItems table sectionId index
      (offset + DataItem.size (.bytes bytes)) rest
    (.bytes bytes :: settled, halt)
  | offset, .field field :: rest =>
    match field.settle table ⟨sectionId, index, offset⟩ with
    | .error halt => (.field field :: rest, some halt)
    | .ok settledField =>
      let (settled, halt) := settleItems table sectionId index
        (offset + DataItem.size (.field field)) rest
      (.field settledField :: settled, halt)

/-- The operands of an instruction, settled one after the other up to the first that cannot be. -/
def settleOperands (table : SymbolTable) (sectionId index : Nat) (name : String) :
    Nat → List Operand → List Operand × Option Halt
  | _, [] => ([], none)
  | number, operand :: rest =>
    match operand.field.settle table ⟨sectionId, index, operand.offset⟩ with
    | .error halt => (operand :: rest, some (halt.within (.inOperand name number)))
    | .ok field =>
      let (settled, halt) := settleOperands table sectionId index name (number + 1) rest
      ({ operand with field } :: settled, halt)

/-- The target of a branch counts from the branch's start and is signed. -/
def Branch.settle (branch : Branch) (table : SymbolTable) (sectionId index : Nat) :
    Branch × Option Halt :=
  match branch.target.settle table ⟨sectionId, index, 0⟩ with
  | .error halt => (branch, some (halt.within (.inTarget branch.name)))
  | .ok target =>
    ({ branch with
        target :=
          { target with origin := some ⟨sectionId, index, 0⟩, signed := true, jump := true } },
      none)

/-- An integer in groups of seven bits cannot wait for a relocation. -/
def VariableInteger.settle (integer : VariableInteger) (table : SymbolTable) (sectionId index : Nat)
    (line : Int) : VariableInteger × Option Halt :=
  let value : Field := { expr := integer.number, signed := integer.signed, line }
  match value.settle table ⟨sectionId, index, 0⟩ with
  | .error halt => ({ integer with value }, some halt)
  | .ok value =>
    ({ integer with value },
      value.symbol.map fun id => .problem (.symbolicLeb128 (table.nameOf id)))

/-- Settle the fields of a body. -/
def Body.settle (body : Body) (table : SymbolTable) (sectionId index : Nat) (line : Int) :
    Body × Option Halt :=
  match body with
  | .data items =>
    let (settled, halt) := settleItems table sectionId index 0 items
    (.data settled, halt)
  | .leb128 integer =>
    let (settled, halt) := integer.settle table sectionId index line
    (.leb128 settled, halt)
  | .instruction code =>
    let (operands, halt) := settleOperands table sectionId index code.name 0 code.operands
    (.instruction { code with operands }, halt)
  | .branch jump =>
    let (settled, halt) := jump.settle table sectionId index
    (.branch settled, halt)
  | .reserve .. | .binary _ | .align _ | .org _ => (body, none)

/-- Whether an expression is a distance inside a section: every term is one of its positions, and
the coefficients cancel. -/
def Expr.isDistance (expr : Expr) (sectionId : Nat) : Bool :=
  (expr.terms.all fun term =>
    match term.base with
    | .place location => location.sectionId == sectionId
    | .symbol _ => false) &&
    (expr.terms.map Term.coefficient).sum == 0

/-- The chunks that a term's position touches: those from the first number up to, but not including,
the second. -/
def Term.reach (term : Term) : Nat × Nat :=
  match term.base with
  | .place location =>
    (location.index, if location.offset = 0 then location.index else location.index + 1)
  | .symbol _ => (0, 0)

/-- Whether the positions of an expression enclose a chunk, so that the distance between them
contains the chunk's own bytes. -/
def Expr.encloses (expr : Expr) (index : Nat) : Bool :=
  let reaches := expr.terms.map Term.reach
  (reaches.any fun reach => reach.1 ≤ index) && (reaches.any fun reach => index < reach.2)

/-- The number of copies to start from, and the span of a count that is a distance. Such a count
starts at zero. -/
def Chunk.initialCopies (chunk : Chunk) (table : SymbolTable) (sectionId index : Nat) :
    Except Halt (Int64 × Option Span) :=
  match chunk.repeats with
  | none => .ok (1, none)
  | some count =>
    if chunk.kind.role = .offsetSetter then .error (.problem .repeatedSetter)
    else do
      let expanded ← Halt.wrap .inRepeat (table.expand count)
      if expanded.isConstant then
        if !isWord expanded.constant then throw (.problem (.inRepeat .notConstant))
        else if expanded.constant < 0 then throw (.problem (.negativeRepeat expanded.constant))
        else return (Int64.ofInt expanded.constant, none)
      else if !expanded.isDistance sectionId then
        throw (.problem (.inRepeat (.unresolved expanded)))
      else if expanded.encloses index then throw (.problem .circularRepeat)
      else
        return (0,
          some { index, purpose := .copies, field := { expr := expanded, line := chunk.line } })

/-- The least length of a body, with what else its measure decides. -/
structure Measure where
  length : UInt64
  /-- The body, with what the measure found out. -/
  body : Body
  near : Bool := false
  setter : Option Setter := none
  span : Option Span := none

/-- A quantity that has to be a constant and not negative. -/
def SymbolTable.naturalWord (table : SymbolTable) (quantity : Quantity) (expr : Expr) :
    Except Halt UInt64 := do
  let value ← Halt.wrap (.inQuantity quantity) (table.constantWord expr)
  if value < 0 then throw (.problem (.negativeQuantity quantity value.toInt))
  else return value.toUInt64

/-- Data is as long as its items together. -/
def measureItems : List DataItem → Except Halt UInt64
  | [] => .ok 0
  | item :: rest =>
    match item with
    | .field field =>
      if field.width = 0 || field.width % 8 ≠ 0 then .error (.problem (.fieldWidth field.width))
      else do return item.size + (← measureItems rest)
    | .bytes _ => do return item.size + (← measureItems rest)

/-- Where the part of the bytes to take starts. -/
def Binary.windowStart (binary : Binary) (table : SymbolTable) : Except Halt Nat :=
  match binary.start with
  | none => return 0
  | some expr => do
    let start ← table.naturalWord .binaryStart expr
    if binary.data.length < start.toNat then
      throw (.problem (.binaryRange binary.name start.toNat binary.data.length))
    else return start.toNat

/-- The part of the bytes to take: from where, and how many. -/
def Binary.window (binary : Binary) (table : SymbolTable) : Except Halt (Nat × Nat) := do
  let start ← binary.windowStart table
  match binary.maxLength with
  | none => return (start, binary.data.length - start)
  | some expr => do
    let limit ← table.naturalWord .binaryLength expr
    return (start, min (binary.data.length - start) limit.toNat)

/-- Whether a word is a power of two. -/
def isPowerOfTwo (value : UInt64) : Bool := value ≠ 0 && value &&& (value - 1) = 0

/-- Every fill sequence but the first has the length that it stands for, and there is at least
one. -/
def checkCodeFill (codeFill : List (List UInt8)) : Option Error :=
  match codeFill with
  | [] => none
  | _ :: entries =>
    match entries.zipIdx 1 |>.find? fun (entry, index) => entry.length ≠ index with
    | some (entry, index) => some (.codeFillEntry index entry.length)
    | none => if entries.isEmpty then some .codeFillEmpty else none

/-- The most bytes that an alignment may skip; zero stands for any number. -/
def Align.skipLimit (align : Align) (table : SymbolTable) : Except Halt UInt64 :=
  match align.maxSkip with
  | none => return 0
  | some expr => table.naturalWord .alignMaxSkip expr

/-- The rule of an alignment. -/
def Align.setter (align : Align) (table : SymbolTable) : Except Halt Setter := do
  let boundary ← Halt.wrap (.inQuantity .alignBoundary) (table.constantWord align.boundary)
  if boundary ≤ 0 || !isPowerOfTwo boundary.toUInt64 then
    throw (.problem (.badAlignment boundary.toInt))
  let maxSkip ← align.skipLimit table
  match checkCodeFill align.codeFill with
  | some error => throw (.problem error)
  | none => return .align boundary.toUInt64 maxSkip

/-- The first operand that is no whole number of bytes, or does not lie inside the encoding. -/
def checkOperands (name : String) (size : Nat) : Nat → List Operand → Option Error
  | _, [] => none
  | number, operand :: rest =>
    if operand.field.width = 0 || operand.field.width % 8 ≠ 0 then
      some (.inOperand name number (.fieldWidth operand.field.width))
    else if size < (operand.offset + operand.field.width / 8).toNat then
      some (.operandOutside name number size)
    else checkOperands name size (number + 1) rest

/-- The form that a branch starts in. A short form that the relaxation may have to give up registers
a span: the displacement counts from the end of the form, and the last of several copies bounds the
reach backwards. -/
def Branch.measure (branch : Branch) (index : Nat) (counted : Bool) (copies : Int64) :
    Except Halt Measure :=
  if branch.nearWidth = 0 || branch.nearWidth % 8 ≠ 0 then
    .error (.problem (.inInstruction branch.name (.displacementWidth branch.nearWidth)))
  else
    let asNear : Measure := { length := branch.nearLength, body := .branch branch, near := true }
    let asShort : Measure := { length := branch.shortLength, body := .branch branch }
    match branch.form with
    | .near => .ok asNear
    | .short => .ok (if branch.short.isNone then asNear else asShort)
    | .auto =>
      if branch.short.isNone || (counted && copies = 0) then .ok asNear
      else
        let length := branch.shortLength.toInt64
        .ok { asShort with
          span := some
            { index
              purpose := .branch branch.nearLength
              field := branch.target
              low := -128 + length * max 1 copies
              high := 127 + length } }

/-- The least length of a chunk's body. -/
def Body.measure (body : Body) (table : SymbolTable) (index : Nat) (counted : Bool)
    (copies : Int64) : Except Halt Measure :=
  match body with
  | .data items => do return { length := ← measureItems items, body }
  | .leb128 integer =>
    if integer.value.isConstant then
      .ok { length := UInt64.ofNat (Leb128.size integer.value.expr.constant integer.signed), body }
    else
      .ok
        { length := 1
          body
          span := some { index, purpose := .leb128 integer.signed, field := integer.value } }
  | .reserve count itemSize => do
    return { length := (← table.naturalWord .reserveCount count) * itemSize, body }
  | .binary part => do
    let (skip, length) ← part.window table
    return { length := UInt64.ofNat length, body := .binary { part with skip } }
  | .align padding => do return { length := 0, body, setter := some (← padding.setter table) }
  | .org padding => do
    let start ← table.naturalWord .origin padding.start
    return { length := 0, body, setter := some (.origin start) }
  | .instruction code =>
    match checkOperands code.name code.bytes.length 0 code.operands with
    | some error => .error (.problem error)
    | none => .ok { length := UInt64.ofNat code.bytes.length, body }
  | .branch jump => jump.measure index counted copies

/-- Prepare a chunk: its slot as the relaxation finds it, and the spans that it registers. What a
branch's form was before is kept until the branch is measured again. -/
def Chunk.prepare (chunk : Chunk) (table : SymbolTable) (sectionId index : Nat) :
    Chunk × Except Halt (List Span) :=
  let slot : Slot := { near := chunk.slot.near }
  let failed (slot : Slot) : Halt → Slot
    | .problem error => { slot with error := some error }
    | .dangling _ => slot
  let (body, halt) := chunk.body.settle table sectionId index chunk.line
  match halt with
  | some halt => ({ chunk with body, slot := failed slot halt }, .error halt)
  | none =>
    match chunk.initialCopies table sectionId index with
    | .error halt => ({ chunk with body, slot := failed slot halt }, .error halt)
    | .ok (copies, countSpan) =>
      match body.measure table index chunk.repeats.isSome copies with
      | .error halt => ({ chunk with body, slot := failed { slot with copies } halt }, .error halt)
      | .ok measure =>
        ({ chunk with
            body := measure.body
            slot :=
              { length := measure.length
                copies
                near := measure.near
                setter := measure.setter } },
          .ok (countSpan.toList ++ measure.span.toList))

end Assembler
