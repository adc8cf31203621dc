import Assembler.Chunk.Body
import Assembler.Chunk.Slot

/-!
# Chunks

A chunk is the unit of a section: a body, an optional repeat count, the labels that stand right
before it, and its slot.
-/

namespace Assembler

/-- The unit of a section. -/
structure Chunk where
  body : Body
  line : Int := 0
  /-- How often the body is repeated; once when absent. -/
  repeats : Option Expr := none
  /-- The labels right before the chunk. -/
  labels : List SymbolId := []
  slot : Slot := {}
deriving DecidableEq

/-- The kind of a chunk. -/
def Chunk.kind (chunk : Chunk) : Kind := chunk.body.kind

end Assembler
