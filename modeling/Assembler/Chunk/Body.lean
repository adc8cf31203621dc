import Assembler.Field

/-!
# What chunks hold

`Body` has a constructor for every kind of chunk that is laid out in its own way; a branch is an
instruction whose length depends on how far its target is.
-/

namespace Assembler

/-- Raw bytes or a field among data. -/
inductive DataItem where
  | bytes (bytes : List UInt8)
  | field (field : Field)
deriving DecidableEq

/-- The number of bytes of an item. -/
def DataItem.size : DataItem → UInt64
  | bytes list => UInt64.ofNat list.length
  | field inner => inner.width / 8

/-- An integer in groups of seven bits. A distance between labels may have any size, and the chunk
grows with it. -/
structure VariableInteger where
  number : Expr
  signed : Bool
  /-- The number as the last layout settled it. -/
  value : Field := { expr := number }
deriving DecidableEq

/-- Part of a given sequence of bytes. -/
structure Binary where
  name : String
  data : List UInt8
  /-- Where the part starts; from the first byte when absent. -/
  start : Option Expr := none
  /-- The most bytes to take; all when absent. -/
  maxLength : Option Expr := none
  /-- The start that the last layout found. -/
  skip : Nat := 0
deriving DecidableEq

/-- Padding up to a multiple of a power of two. -/
structure Align where
  boundary : Expr
  fill : UInt8 := 0
  /-- Longer padding is left out; zero or absent means no limit. -/
  maxSkip : Option Expr := none
  /-- Fill sequences by their length; when there are none, `fill` is repeated. -/
  codeFill : List (List UInt8) := []
deriving DecidableEq

/-- Padding up to an offset of the section. -/
structure Org where
  start : Expr
  fill : UInt8 := 0
deriving DecidableEq

/-- A field inside the encoding of an instruction. -/
structure Operand where
  offset : UInt64
  field : Field
deriving DecidableEq

/-- An instruction of fixed length. -/
structure Instruction where
  name : String
  bytes : List UInt8
  operands : List Operand := []
deriving DecidableEq

/-- Which form of a branch to take. -/
inductive Form where
  /-- The short one as long as it reaches. -/
  | auto
  | short
  | near
deriving DecidableEq

namespace Form

/-- The names of the forms, by code. -/
def names : List String := ["auto", "short", "near"]

/-- The form with a code; a code without a form leaves the choice open. -/
def ofCode (code : Int) : Form :=
  if code = 1 then .short else if code = 2 then .near else .auto

end Form

/-- A jump relative to its own end, with a displacement of eight bits in the short form. -/
structure Branch where
  name : String
  /-- The opcode of the short form, if there is one. -/
  short : Option (List UInt8)
  /-- The opcode of the near form. -/
  near : List UInt8
  /-- The width in bits of the near displacement. -/
  nearWidth : UInt64
  target : Field
  form : Form := .auto
deriving DecidableEq

namespace Branch

/-- The length of the short form. -/
def shortLength (branch : Branch) : UInt64 :=
  UInt64.ofNat (branch.short.getD []).length + 1

/-- The length of the near form. -/
def nearLength (branch : Branch) : UInt64 :=
  UInt64.ofNat branch.near.length + branch.nearWidth / 8

end Branch

/-- What a chunk holds. -/
inductive Body where
  | data (items : List DataItem)
  | leb128 (integer : VariableInteger)
  /-- Zero bytes: a count of items of a size. -/
  | reserve (count : Expr) (itemSize : UInt64)
  | binary (binary : Binary)
  | align (align : Align)
  | org (org : Org)
  | instruction (instruction : Instruction)
  | branch (branch : Branch)
deriving DecidableEq

/-- The kind of a body. -/
def Body.kind : Body → Kind
  | .data _ => .data
  | .leb128 _ => .leb128
  | .reserve .. => .reserve
  | .binary _ => .binary
  | .align _ => .align
  | .org _ => .org
  | .instruction _ | .branch _ => .instruction

end Assembler
