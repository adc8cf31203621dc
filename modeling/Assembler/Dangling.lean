import Assembler.Error

/-!
# Dangling references

A reference to a symbol or section that the object does not hold is a mistake of the caller, not of
the program being assembled. It ends the operation at once, with no report. So does a field whose
bytes cannot be had: they end before they start, start before the first byte, or are more than there
can be.
-/

namespace Assembler

/-- A reference to something that the object does not hold. -/
inductive Dangling where
  | symbol (id : SymbolId)
  | missingSection (id : Int)
  | bytes (start stop : UInt64)
  | bytesBefore (start : Int64)
  | allBytes
deriving DecidableEq

/-- The wording of a dangling reference. Bytes that cannot be had are not worded. -/
def Dangling.message : Dangling → Option String
  | .symbol id => some ("asm: invalid symbol id " ++ toString id)
  | .missingSection id => some ("asm: invalid section id " ++ toString id)
  | .bytes .. | .bytesBefore _ | .allBytes => none

/-- Why work on a chunk stopped: a dangling reference ends everything, a problem only the chunk. -/
inductive Halt where
  | dangling (reference : Dangling)
  | problem (error : Error)
deriving DecidableEq

/-- Put an error into its context; a dangling reference has none. -/
def Halt.within (context : Error → Error) : Halt → Halt
  | .dangling reference => .dangling reference
  | .problem error => .problem (context error)

/-- Put the errors of a computation into their context. -/
def Halt.wrap {α : Type} (context : Error → Error) (result : Except Halt α) : Except Halt α :=
  match result with
  | .ok value => .ok value
  | .error halt => .error (halt.within context)

end Assembler
