/-!
# Kinds of symbols
-/

namespace Assembler

/-- What a symbol's name stands for. -/
inductive SymbolKind where
  | undefined
  | label
  | equ
  | imported
deriving DecidableEq

namespace SymbolKind

/-- The names of the kinds, by code. -/
def names : List String := ["undefined", "label", "equ", "extern"]

/-- The name of a kind. -/
def text : SymbolKind → String
  | .undefined => "undefined"
  | .label => "label"
  | .equ => "equ"
  | .imported => "extern"

end SymbolKind

end Assembler
