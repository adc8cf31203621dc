import Assembler.Error

/-!
# Registries of formats

A registry knows formats by their names. A format without a name, or with one that is taken, is
refused.
-/

namespace Assembler

/-- Formats by name, in the order in which they were registered. -/
structure Registry (α : Type) where
  entries : List (String × α) := []

namespace Registry

variable {α : Type}

/-- The names of the formats, in alphabetical order. -/
def names (registry : Registry α) : List String :=
  (registry.entries.map Prod.fst).mergeSort fun left right => left ≤ right

/-- Add a format. A format without a name is described by a text of the caller. -/
def register (registry : Registry α) (name : String) (format : α) (description : String) :
    Except Error (Registry α) :=
  if name.isEmpty then .error (.namelessFormat description)
  else if (registry.entries.map Prod.fst).contains name then .error (.duplicateFormat name)
  else .ok ⟨registry.entries ++ [(name, format)]⟩

/-- The format with a name. -/
def find (registry : Registry α) (name : String) : Except Error α :=
  match registry.entries.lookup name with
  | some format => .ok format
  | none => .error (.unknownFormat name registry.names)

end Registry

end Assembler
