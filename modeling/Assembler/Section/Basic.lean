import Assembler.Chunk.Basic
import Assembler.Reloc
import Assembler.Relaxation

/-!
# Sections

A section is a list of chunks that is only ever extended at its end; the order of the chunks is the
order of their bytes. It also holds what the last layout and the emissions since then left behind.
-/

namespace Assembler

/-- The work that a layout took. -/
structure LayoutStats where
  passes : Nat := 0
  spans : Nat := 0
  expansions : Nat := 0
  retired : Nat := 0
deriving DecidableEq

/-- An ordered list of chunks, with its layout. -/
structure Section where
  name : String
  chunks : List Chunk := []
  /-- The labels behind the last chunk, which the next chunk takes over. -/
  pending : List SymbolId := []
  spans : List Span := []
  /-- The relocations recorded since the last layout, by offset. -/
  relocs : List Reloc := []
  size : UInt64 := 0
  laidOut : Bool := false
  /-- Whether the last layout had a problem. -/
  failed : Bool := false
  stats : LayoutStats := {}
  /-- The address of the first byte. -/
  base : UInt64 := 0
  /-- The section takes up addresses, but no bytes of a file. -/
  noBits : Bool := false
deriving DecidableEq

namespace Section

/-- The slots of the chunks. -/
def slots (sect : Section) : List Slot := sect.chunks.map Chunk.slot

/-- The position of the next chunk to be appended, in the section with a number. -/
def here (sect : Section) (id : Nat) : Location := ⟨id, sect.chunks.length, 0⟩

/-- Append a chunk, which takes over the labels behind the last one. -/
def append (sect : Section) (body : Body) (line : Int) (repeats : Option Expr := none) : Section :=
  { sect with
    chunks := sect.chunks ++ [{ body, line, repeats, labels := sect.pending }]
    pending := []
    laidOut := false }

/-- Change the repeat count of the chunk at an index. -/
def setRepeats (sect : Section) (index : Nat) (repeats : Expr) : Section :=
  { sect with
    chunks := sect.chunks.modify index fun chunk => { chunk with repeats := some repeats } }

/-- The offset of a position in the section. -/
def offsetOf (sect : Section) (location : Location) : UInt64 :=
  offsetAmong sect.slots sect.size location

/-- Record relocations. -/
def addRelocs (sect : Section) (relocs : List Reloc) : Section :=
  { sect with relocs := Reloc.insertAll relocs sect.relocs }

end Section

end Assembler
