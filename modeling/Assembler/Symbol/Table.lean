import Assembler.Dangling

/-!
# The symbols of an object

A symbol is known by its name and by its number, which is its place in the table counted from one.
A name enters the table on first use, and gets its meaning at most once. `expand` turns an
expression into one that mentions positions and unresolved symbols only.
-/

namespace Assembler

/-- What a symbol's name stands for. -/
inductive Meaning where
  /-- Nothing so far. -/
  | undefined
  /-- A position. -/
  | label (place : Location)
  /-- An expression. -/
  | equ (body : Expr)
  /-- Something that another object provides. -/
  | imported
deriving DecidableEq

/-- The kind of a meaning. -/
def Meaning.kind : Meaning → SymbolKind
  | .undefined => .undefined
  | .label _ => .label
  | .equ _ => .equ
  | .imported => .imported

/-- A named entry of the table, with the line that gave it its meaning. -/
structure Symbol where
  name : String
  meaning : Meaning := .undefined
  line : Int := 0
deriving DecidableEq

/-- The symbols of an object, in the order of their numbers. -/
structure SymbolTable where
  symbols : List Symbol := []
deriving DecidableEq

namespace SymbolTable

/-- The number of the symbol with a name. -/
def find? (table : SymbolTable) (name : String) : Option SymbolId :=
  (table.symbols.findIdx? fun symbol => symbol.name == name).map fun index => (index : Int) + 1

/-- The symbol with a number. -/
def get? (table : SymbolTable) (id : SymbolId) : Option Symbol :=
  match id with
  | .ofNat (index + 1) => table.symbols[index]?
  | _ => none

/-- The symbol with a number, or the dangling reference that the number is. -/
def get (table : SymbolTable) (id : SymbolId) : Except Dangling Symbol :=
  match table.get? id with
  | some symbol => .ok symbol
  | none => .error (.symbol id)

/-- The name of the symbol with a number; empty when there is none. -/
def nameOf (table : SymbolTable) (id : SymbolId) : String :=
  ((table.get? id).map Symbol.name).getD ""

/-- The number of a name, which enters the table if it is new. -/
def intern (table : SymbolTable) (name : String) : SymbolTable × SymbolId :=
  match table.find? name with
  | some id => (table, id)
  | none => (⟨table.symbols ++ [{ name }]⟩, (table.symbols.length : Int) + 1)

/-- Replace the symbol with a number. -/
def set (table : SymbolTable) (id : SymbolId) (symbol : Symbol) : SymbolTable :=
  ⟨table.symbols.set (id.toNat - 1) symbol⟩

/-- Give a name its meaning. A name that has one keeps it. -/
def define (table : SymbolTable) (name : String) (meaning : Meaning) (line : Int) :
    SymbolTable × SymbolId × Option Error :=
  let (interned, id) := table.intern name
  match interned.get? id with
  | none => (interned, id, none)
  | some symbol =>
    if symbol.meaning = .undefined then (interned.set id { name, meaning, line }, id, none)
    else (interned, id, some (.redefined name symbol.line))

/-- Expand an expression below the EQUs in `opened`, with at most `depth` more EQUs inside each
other. Since no EQU is entered twice, a depth of the number of symbols is never used up. -/
def expandBelow (table : SymbolTable) : Nat → List SymbolId → Expr → Except Halt Expr
  | depth, opened, expr =>
    expr.terms.foldlM (fun sum term =>
      match term.base with
      | .place _ => .ok (sum.addTerm term)
      | .symbol id =>
        match table.get? id with
        | none => .error (.dangling (.symbol id))
        | some symbol =>
          match symbol.meaning with
          | .undefined | .imported => .ok (sum.addTerm term)
          | .label place => .ok (sum.addTerm ⟨term.coefficient, .place place⟩)
          | .equ body =>
            if id ∈ opened then .error (.problem (.circularEqu symbol.name))
            else
              match depth with
              | 0 => .error (.problem (.circularEqu symbol.name))
              | depth + 1 => do
                let value ← table.expandBelow depth (id :: opened) body
                return sum.add (value.scale term.coefficient)) (Expr.ofInt expr.constant)

/-- The same expression, mentioning positions and unresolved symbols only: labels become
positions and EQUs their bodies. -/
def expand (table : SymbolTable) (expr : Expr) : Except Halt Expr :=
  table.expandBelow table.symbols.length [] expr

/-- The value of an expression that has to be a constant word. -/
def constantWord (table : SymbolTable) (expr : Expr) : Except Halt Int64 := do
  let value ← table.expand expr
  if value.isConstant && isWord value.constant then return Int64.ofInt value.constant
  else throw (.problem .notConstant)

end SymbolTable

end Assembler
