import Assembler.Formula.Token
import Assembler.Symbol.Table
import Assembler.Text.Literal

/-!
# Formulas

A formula is the source of an expression: integers, names, `$` for the current position, signs,
sums, differences, products and parentheses. Reading one never fails: where the tokens do not fit,
the tree has a leaf that says so. `eval` then works from left to right and stops at the first leaf
or operation that has no value, so that what it reports is what comes first in the text.
-/

namespace Assembler

/-- The tree of a formula. -/
inductive Formula where
  | number (text : String)
  | name (text : String)
  /-- The current position. -/
  | here
  | negate (operand : Formula)
  | add (left right : Formula)
  | subtract (left right : Formula)
  | multiply (left right : Formula)
  /-- A parenthesis that is not closed behind its content. -/
  | unclosed (inner : Formula)
  /-- A token that cannot stand where it does. -/
  | unexpected (token : Token)
  /-- The end of the text where more was needed. -/
  | unexpectedEnd
  /-- A formula with a token behind it. -/
  | followed (inner : Formula) (token : Token)
deriving DecidableEq

namespace Formula

mutual

/-- Read a sum of products, with the tokens behind it. The fuel bounds the depth of the reading. -/
def readSum : Nat → List Token → Formula × List Token
  | 0, tokens => (.unexpectedEnd, tokens)
  | fuel + 1, tokens =>
    let (first, rest) := readProduct fuel tokens
    readSumRest fuel first rest

/-- Read the products that are added to a formula or subtracted from it. -/
def readSumRest : Nat → Formula → List Token → Formula × List Token
  | 0, left, tokens => (left, tokens)
  | fuel + 1, left, .mark '+' :: tokens =>
    let (right, rest) := readProduct fuel tokens
    readSumRest fuel (.add left right) rest
  | fuel + 1, left, .mark '-' :: tokens =>
    let (right, rest) := readProduct fuel tokens
    readSumRest fuel (.subtract left right) rest
  | _ + 1, left, tokens => (left, tokens)

/-- Read a product of signed formulas. -/
def readProduct : Nat → List Token → Formula × List Token
  | 0, tokens => (.unexpectedEnd, tokens)
  | fuel + 1, tokens =>
    let (first, rest) := readSigned fuel tokens
    readProductRest fuel first rest

/-- Read the signed formulas that a formula is multiplied by. -/
def readProductRest : Nat → Formula → List Token → Formula × List Token
  | 0, left, tokens => (left, tokens)
  | fuel + 1, left, .mark '*' :: tokens =>
    let (right, rest) := readSigned fuel tokens
    readProductRest fuel (.multiply left right) rest
  | _ + 1, left, tokens => (left, tokens)

/-- Read a formula behind any number of signs. -/
def readSigned : Nat → List Token → Formula × List Token
  | 0, tokens => (.unexpectedEnd, tokens)
  | fuel + 1, .mark '-' :: tokens =>
    let (operand, rest) := readSigned fuel tokens
    (.negate operand, rest)
  | fuel + 1, .mark '+' :: tokens => readSigned fuel tokens
  | fuel + 1, tokens => readPrimary fuel tokens

/-- Read an integer, a name, the current position or a formula in parentheses. -/
def readPrimary : Nat → List Token → Formula × List Token
  | _, .number text :: tokens => (.number text, tokens)
  | _, .name text :: tokens => (.name text, tokens)
  | _, .mark '$' :: tokens => (.here, tokens)
  | fuel + 1, .mark '(' :: tokens =>
    match readSum fuel tokens with
    | (inner, .mark ')' :: rest) => (inner, rest)
    | (inner, rest) => (.unclosed inner, rest)
  | _, token :: tokens => (.unexpected token, token :: tokens)
  | _, [] => (.unexpectedEnd, [])

end

/-- The fuel that reads any list of tokens of a length: at most five readers are entered for each
token. -/
def fuelFor (length : Nat) : Nat := 5 * length + 5

/-- The formula that tokens spell. -/
def ofTokens (tokens : List Token) : Formula :=
  match readSum (fuelFor tokens.length) tokens with
  | (formula, []) => formula
  | (formula, token :: _) => .followed formula token

/-- The formula that a text spells. -/
def ofText (text : String) : Formula := ofTokens (Token.ofText text)

/-- Why a formula has no value. -/
inductive Problem where
  | badInteger (text : String)
  /-- The current position, where there is none. -/
  | noPosition
  | unclosed
  | unexpected (token : Token)
  | unexpectedEnd
  /-- A product of two formulas that are no constants. -/
  | product
  /-- A factor that is no word. -/
  | coefficient (factor : Int)
deriving DecidableEq

namespace Problem

/-- The wording of a problem of the formula with a text. -/
def message (source : String) : Problem → String
  | .badInteger text => lead ++ "bad integer " ++ Text.quote text
  | .noPosition => lead ++ "'$' used outside a section"
  | .unclosed => lead ++ "missing ')'"
  | .unexpected token => lead ++ "unexpected " ++ Text.quote token.text
  | .unexpectedEnd => lead ++ "unexpected end"
  | .product => lead ++ Cause.tooComplex.text ++ ": product of two non-constant terms"
  | .coefficient factor => Cause.tooComplex.text ++ ": coefficient " ++ toString factor
where
  /-- The text that most messages begin with. -/
  lead : String := "expression " ++ Text.quote source ++ ": "

/-- The causes of a problem. -/
def causes : Problem → List Cause
  | .product | .coefficient _ => [.tooComplex]
  | .badInteger _ | .noPosition | .unclosed | .unexpected _ | .unexpectedEnd => []

end Problem

/-- Multiply an expression by a constant. -/
def scale (expr : Expr) (factor : Int) : Except Problem Expr :=
  if expr.isConstant then .ok (Expr.ofInt (expr.constant * factor))
  else if isWord factor then .ok (expr.scale (Int64.ofInt factor))
  else .error (.coefficient factor)

/-- Multiply two expressions, one of which has to be a constant. -/
def product (left right : Expr) : Except Problem Expr :=
  if right.isConstant then scale left right.constant
  else if left.isConstant then scale right left.constant
  else .error .product

/-- What a formula may refer to. Asking for the symbol of a name may change a state. -/
structure Scope (σ : Type) where
  symbol : String → σ → σ × SymbolId
  /-- The current position, where there is one. -/
  place : Option Location

/-- The value of a formula, given the state before it. -/
abbrev Evaluation (σ : Type) := σ → σ × Except Problem Expr

namespace Evaluation

variable {σ : Type}

/-- Continue with a value. -/
def andThen (first : Evaluation σ) (next : Expr → Evaluation σ) : Evaluation σ := fun state =>
  match first state with
  | (after, .ok value) => next value after
  | (after, .error problem) => (after, .error problem)

/-- A value or problem that does not depend on the state. -/
def done (result : Except Problem Expr) : Evaluation σ := fun state => (state, result)

/-- Evaluate two formulas, the left one first, and join their values. -/
def join (left right : Evaluation σ) (combine : Expr → Expr → Except Problem Expr) :
    Evaluation σ :=
  left.andThen fun first => right.andThen fun second => done (combine first second)

end Evaluation

/-- The expression that a formula stands for. Symbols are asked for in the order of the text, up to
the first problem. -/
def eval {σ : Type} (scope : Scope σ) : Formula → Evaluation σ
  | .number text =>
    match Text.Literal.read text.toList with
    | some value => .done (.ok (Expr.ofInt value))
    | none => .done (.error (.badInteger text))
  | .name text => fun state =>
    let (after, id) := scope.symbol text state
    (after, .ok (Expr.ofSymbol id))
  | .here =>
    match scope.place with
    | some location => .done (.ok (Expr.ofLocation location))
    | none => .done (.error .noPosition)
  | .negate operand => (eval scope operand).andThen fun value => .done (.ok (value.scale (-1)))
  | .add left right => .join (eval scope left) (eval scope right) fun a b => .ok (a.add b)
  | .subtract left right => .join (eval scope left) (eval scope right) fun a b => .ok (a.sub b)
  | .multiply left right => .join (eval scope left) (eval scope right) product
  | .unclosed inner => (eval scope inner).andThen fun _ => .done (.error .unclosed)
  | .unexpected token => .done (.error (.unexpected token))
  | .unexpectedEnd => .done (.error .unexpectedEnd)
  | .followed inner token => (eval scope inner).andThen fun _ => .done (.error (.unexpected token))

end Formula

/-- The scope of a symbol table: names enter the table when they are new. -/
def SymbolTable.scope (place : Option Location) : Formula.Scope SymbolTable where
  symbol name table := table.intern name
  place

end Assembler
