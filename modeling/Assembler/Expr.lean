/-!
# Linear expressions

An expression is a constant plus a sum of symbols and positions, each with a coefficient. The
constant is unbounded and a coefficient is a signed 64-bit word that wraps. The operations keep the
terms in one order, with no base twice and no coefficient zero.
-/

namespace Assembler

/-- The number of a symbol in its object; numbers start at one. -/
abbrev SymbolId := Int

/-- The number of a section in its object; numbers start at zero. -/
abbrev SectionId := Int

/-- A position inside a section: `offset` bytes past the start of the chunk at `index`. An index
that no chunk has names the end of the section. -/
structure Location where
  sectionId : SectionId
  index : Nat
  offset : UInt64
deriving DecidableEq

namespace Location

/-- Locations are ordered by section, then by chunk, then by offset. -/
def isBefore (left right : Location) : Bool :=
  if left.sectionId ≠ right.sectionId then left.sectionId < right.sectionId
  else if left.index ≠ right.index then left.index < right.index
  else left.offset < right.offset

/-- The text of a location. -/
def text (location : Location) : String :=
  "s" ++ toString location.sectionId ++ ":bc" ++ toString location.index ++ "+" ++
    toString location.offset.toNat

end Location

/-- What a term of an expression scales. -/
inductive Base where
  | symbol (id : SymbolId)
  | place (location : Location)
deriving DecidableEq

namespace Base

/-- Symbols are ordered by their number, and every position stands where zero would. -/
def rank : Base → Int
  | .symbol id => id
  | .place _ => 0

/-- The order of the terms of an expression. -/
def isBefore (left right : Base) : Bool :=
  if left.rank ≠ right.rank then left.rank < right.rank
  else
    match left, right with
    | .place first, .place second => first.isBefore second
    | _, _ => false

/-- The text of a base. -/
def text : Base → String
  | .symbol id => "sym" ++ toString id
  | .place location => location.text

end Base

/-- A scaled symbol or position. -/
structure Term where
  coefficient : Int64
  base : Base
deriving DecidableEq

/-- A constant plus a sum of terms. -/
structure Expr where
  constant : Int := 0
  terms : List Term := []
deriving DecidableEq

namespace Expr

/-- A constant. -/
def ofInt (value : Int) : Expr := { constant := value }

/-- A position. -/
def ofLocation (location : Location) : Expr := { terms := [⟨1, .place location⟩] }

/-- A symbol. The number zero is no symbol's, and stands for the first position of all. -/
def ofSymbol (id : SymbolId) : Expr :=
  if id = 0 then ofLocation ⟨0, 0, 0⟩ else { terms := [⟨1, .symbol id⟩] }

/-- Whether the expression is a constant. -/
def isConstant (expr : Expr) : Bool := expr.terms.isEmpty

/-- Add a term to an ordered list of terms; a base whose coefficients cancel drops out. -/
def insertTerm (term : Term) : List Term → List Term
  | [] => if term.coefficient = 0 then [] else [term]
  | first :: rest =>
    if term.base = first.base then
      if first.coefficient + term.coefficient = 0 then rest
      else ⟨first.coefficient + term.coefficient, first.base⟩ :: rest
    else if term.base.isBefore first.base then
      if term.coefficient = 0 then first :: rest else term :: first :: rest
    else first :: insertTerm term rest

/-- Add one term. -/
def addTerm (expr : Expr) (term : Term) : Expr :=
  { expr with terms := insertTerm term expr.terms }

/-- The sum of two expressions. -/
def add (left right : Expr) : Expr :=
  { constant := left.constant + right.constant
    terms := right.terms.foldl (fun terms term => insertTerm term terms) left.terms }

/-- Add a constant. -/
def addInt (expr : Expr) (value : Int) : Expr :=
  { expr with constant := expr.constant + value }

/-- Multiply by a word; coefficients wrap, and those that become zero drop out. -/
def scale (expr : Expr) (factor : Int64) : Expr :=
  { constant := expr.constant * factor.toInt
    terms :=
      (expr.terms.map fun term =>
        { term with coefficient := term.coefficient * factor }).filter fun term =>
          term.coefficient ≠ 0 }

/-- The difference of two expressions. -/
def sub (left right : Expr) : Expr := left.add (right.scale (-1))

/-- The text of a coefficient in front of its base; one is left out. -/
def coefficientText (coefficient : Int64) : String :=
  if coefficient = 1 then "" else toString coefficient.toInt ++ "*"

/-- The text of a term that follows others. -/
def laterTermText (term : Term) : String :=
  if term.coefficient < 0 then " - " ++ coefficientText (-term.coefficient) ++ term.base.text
  else " + " ++ coefficientText term.coefficient ++ term.base.text

/-- The text of the first term. -/
def firstTermText (term : Term) : String :=
  if term.coefficient < 0 then "-" ++ coefficientText (-term.coefficient) ++ term.base.text
  else coefficientText term.coefficient ++ term.base.text

/-- The text of an expression: the terms in order, then the constant unless it is zero. -/
def text (expr : Expr) : String :=
  match expr.terms with
  | [] => toString expr.constant
  | first :: rest =>
    firstTermText first ++ String.join (rest.map laterTermText) ++
      (if 0 < expr.constant then " + " ++ toString expr.constant
       else if expr.constant < 0 then " - " ++ toString (-expr.constant)
       else "")

end Expr

/-- Whether an integer is a signed 64-bit word. -/
def isWord (value : Int) : Bool :=
  Int64.minValue.toInt ≤ value && value ≤ Int64.maxValue.toInt

end Assembler
