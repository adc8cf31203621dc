import Assembler.Dangling

/-!
# Relocations

A relocation names a field that has to be filled in once the address of a symbol is known. `Program`
is the content of a section with its relocations; `Program.relocated` fills the fields in.
-/

namespace Assembler

/-- A field to be filled with a symbol's address plus an addend, minus the field's own address when
it counts from there. -/
structure Reloc where
  offset : UInt64
  symbol : SymbolId
  addend : Int64
  /-- The width in bits. -/
  width : UInt64
  pcRelative : Bool := false
  signed : Bool := false
deriving DecidableEq

namespace Reloc

/-- Record a relocation in a list ordered by offset; one at the same offset is replaced. -/
def insert (reloc : Reloc) : List Reloc → List Reloc
  | [] => [reloc]
  | first :: rest =>
    if reloc.offset = first.offset then reloc :: rest
    else if reloc.offset < first.offset then reloc :: first :: rest
    else first :: insert reloc rest

/-- Record relocations one after the other. -/
def insertAll (relocs : List Reloc) (recorded : List Reloc) : List Reloc :=
  relocs.foldl (fun recorded reloc => insert reloc recorded) recorded

/-- The number of bytes that hold the field. -/
def size (reloc : Reloc) : UInt64 := (reloc.width + 7) / 8

/-- The value of the field, in a program loaded at a base. -/
def value (reloc : Reloc) (base target : UInt64) : Int :=
  target.toNat + reloc.addend.toInt - (if reloc.pcRelative then (base + reloc.offset).toNat else 0)

/-- The range that the value is held against. -/
def check (reloc : Reloc) : RangeCheck :=
  if reloc.signed || reloc.pcRelative then .signed else .unsigned

/-- Fill in one field. What was in it before is cleared. The end of the field is a word, so that it
may wrap and seem to be inside the code. -/
def apply (reloc : Reloc) (code : List UInt8) (base : UInt64)
    (resolve : SymbolId → Option UInt64) : Except Halt (List UInt8) :=
  match resolve reloc.symbol with
  | none => .error (.problem (.undefinedId reloc.symbol))
  | some target =>
    let stop := reloc.offset + reloc.size
    if code.length < stop.toNat then
      .error (.problem (.relocOverrun reloc.offset code.length))
    else if stop < reloc.offset then .error (.dangling (.bytes reloc.offset stop))
    else if reloc.width + 7 < reloc.width then .error (.dangling .allBytes)
    else
      let start := reloc.offset.toNat
      let room := List.replicate reloc.size.toNat 0
      match BitField.write room (reloc.value base target) reloc.width 0 reloc.check with
      | (_, some problem) => .error (.problem (.atReloc reloc.offset (.bitField problem)))
      | (field, none) => .ok (code.take start ++ field ++ code.drop (start + reloc.size.toNat))

end Reloc

/-- The emitted content of a section. -/
structure Program where
  name : String
  code : List UInt8
  relocs : List Reloc := []
  /-- How many bytes the section occupies without holding them. -/
  reserved : UInt64 := 0
deriving DecidableEq

/-- The code of a program loaded at a base, with every relocation filled in. -/
def Program.relocated (program : Program) (base : UInt64) (resolve : SymbolId → Option UInt64) :
    Except Halt (List UInt8) :=
  program.relocs.foldlM (fun code reloc => reloc.apply code base resolve) program.code

end Assembler
