import Assembler.Error

/-!
# Conditions of the x86-64

A condition is the low half of the opcode of a conditional jump. Several names stand for the same
condition.
-/

namespace Assembler.Machine

/-- The condition of a conditional jump. -/
structure Condition where
  code : UInt8
deriving DecidableEq

namespace Condition

/-- The names of the conditions, by code. -/
def names : List (List String) :=
  [["o"], ["no"], ["b", "c", "nae"], ["ae", "nb", "nc"], ["e", "z"], ["ne", "nz"], ["be", "na"],
    ["a", "nbe"], ["s"], ["ns"], ["p", "pe"], ["np", "po"], ["l", "nge"], ["ge", "nl"],
    ["le", "ng"], ["g", "nle"]]

/-- The condition with a name. -/
def ofName (name : String) : Except Error Condition :=
  match names.findIdx? fun aliases => aliases.contains name with
  | some code => .ok ⟨UInt8.ofNat code⟩
  | none => .error (.unknownCondition name)

end Condition

end Assembler.Machine
