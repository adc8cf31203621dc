import Assembler.Proofs.Formula.Lexing
import Assembler.Proofs.Formula.Reading
import Assembler.Proofs.Text.Numeral

/-!
# The values of formulas

`Formula.Means` says which expression a formula stands for, given the symbols of its names.
Evaluation asks a scope for these symbols from left to right and gives that expression
(`eval_eq_ok_iff`). If there is none, it has asked for those of the names that come first
(`asked_eval`). With the tokens of a text and their derivation this says which texts have a value,
and which value (`eval_ofText_iff`).
-/

namespace Assembler

variable {combine : Expr → Expr → Except Problem Expr}

namespace Token

/-- The name that a token is. -/
def name? : Token → Option String
  | .name text => some text
  | .number _ | .mark _ => none

/-- The names among tokens, from left to right. -/
def names (tokens : List Token) : List String := tokens.filterMap name?

/-- The operands among tokens have the same names. -/
theorem names_operands (tokens : List Token) : names (operands tokens) = names tokens := by
  induction tokens with
  | nil => rfl
  | cons token rest ih =>
    cases token with
    | number | mark => exact ih
    | name text => exact congrArg (text :: ·) ih

/-- Nothing is wrong with the characters of a token. -/
def Faultless : Token → Prop
  | .number text => Text.Literal.WellSpelled text.toList
  | .name _ => True
  | .mark char => char ≠ '\x00'

end Token

namespace Formula

/-- The names in a formula, from left to right. -/
def names (formula : Formula) : List String := Token.names formula.operands

@[simp] theorem names_add (left right : Formula) :
    (add left right).names = left.names ++ right.names :=
  List.filterMap_append

@[simp] theorem names_subtract (left right : Formula) :
    (subtract left right).names = left.names ++ right.names :=
  List.filterMap_append

@[simp] theorem names_multiply (left right : Formula) :
    (multiply left right).names = left.names ++ right.names :=
  List.filterMap_append

/-- The formula of a derivation has the names of its tokens. -/
theorem Tree.names_formula (tree : Tree .sum) :
    Formula.names tree.formula = Token.names tree.tokens :=
  (congrArg Token.names (operands_formula tree)).trans (Token.names_operands tree.tokens)

/-! ### What formulas stand for -/

/-- The product of two expressions. One has to be a constant, and a word unless the other is a
constant too. -/
inductive Multiplies (left right : Expr) : Expr → Prop where
  | constants (isLeft : left.isConstant = true) (isRight : right.isConstant = true) :
    Multiplies left right (.ofInt (left.constant * right.constant))
  | scaleLeft (isLeft : left.isConstant = false) (isRight : right.isConstant = true)
    (word : isWord right.constant = true) :
    Multiplies left right (left.scale (Int64.ofInt right.constant))
  | scaleRight (isLeft : left.isConstant = true) (isRight : right.isConstant = false)
    (word : isWord left.constant = true) :
    Multiplies left right (right.scale (Int64.ofInt left.constant))

/-- The expression that a formula stands for, at a place and with symbols for its names from left to
right. -/
inductive Means (place : Option Location) : Formula → List SymbolId → Expr → Prop where
  | number {text : String} {value : Nat} (denotes : Text.Literal.Denotes text.toList value) :
    Means place (.number text) [] (.ofInt value)
  | name (text : String) (id : SymbolId) : Means place (.name text) [id] (.ofSymbol id)
  | here {location : Location} (placed : place = some location) :
    Means place .here [] (.ofLocation location)
  | negate {operand : Formula} {ids : List SymbolId} {value : Expr}
    (means : Means place operand ids value) : Means place (.negate operand) ids (value.scale (-1))
  | add {left right : Formula} {first second : List SymbolId} {a b : Expr}
    (isLeft : Means place left first a) (isRight : Means place right second b) :
    Means place (.add left right) (first ++ second) (a.add b)
  | subtract {left right : Formula} {first second : List SymbolId} {a b : Expr}
    (isLeft : Means place left first a) (isRight : Means place right second b) :
    Means place (.subtract left right) (first ++ second) (a.sub b)
  | multiply {left right : Formula} {first second : List SymbolId} {a b value : Expr}
    (isLeft : Means place left first a) (isRight : Means place right second b)
    (multiplies : Multiplies a b value) :
    Means place (.multiply left right) (first ++ second) value

/-- `product` gives the product of two expressions, if there is one. -/
theorem product_eq_ok_iff {left right value : Expr} :
    product left right = .ok value ↔ Multiplies left right value := by
  constructor
  · unfold product scale
    cases isLeft : left.isConstant <;> cases isRight : right.isConstant <;>
      simp only [if_true, if_false, Bool.false_eq_true, reduceCtorEq, false_implies]
    · split
      · next word =>
        rintro ⟨⟩
        exact .scaleLeft isLeft isRight word
      · simp
    · split
      · next word =>
        rintro ⟨⟩
        exact .scaleRight isLeft isRight word
      · simp
    · rintro ⟨⟩
      exact .constants isLeft isRight
  · intro multiplies
    cases multiplies with
    | constants isLeft isRight => simp [product, scale, isLeft, isRight]
    | scaleLeft isLeft isRight word | scaleRight isLeft isRight word =>
      simp [product, scale, isLeft, isRight, word]

/-- Two formulas under an operator, and how it joins their values. -/
inductive Joins (left right : Formula) : Formula → (Expr → Expr → Except Problem Expr) → Prop where
  | add : Joins left right (.add left right) fun a b => .ok (a.add b)
  | subtract : Joins left right (.subtract left right) fun a b => .ok (a.sub b)
  | multiply : Joins left right (.multiply left right) product

/-- An operator stands for what it makes of the values of its operands. -/
theorem Joins.means_iff {left right joined : Formula}
    (joins : Joins left right joined combine) {place : Option Location} {ids : List SymbolId}
    {value : Expr} :
    Means place joined ids value ↔ ∃ first second a b, ids = first ++ second ∧
      Means place left first a ∧ Means place right second b ∧ combine a b = .ok value := by
  constructor
  · intro means
    cases joins with
    | add | subtract =>
      cases means
      exact ⟨_, _, _, _, rfl, by assumption, by assumption, rfl⟩
    | multiply =>
      cases means with
      | multiply isLeft isRight multiplies =>
        exact ⟨_, _, _, _, rfl, isLeft, isRight, product_eq_ok_iff.mpr multiplies⟩
  · rintro ⟨first, second, a, b, rfl, isLeft, isRight, combines⟩
    cases joins with
    | add =>
      cases combines
      exact .add isLeft isRight
    | subtract =>
      cases combines
      exact .subtract isLeft isRight
    | multiply => exact .multiply isLeft isRight (product_eq_ok_iff.mp combines)

namespace Means

variable {place : Option Location} {formula : Formula} {ids : List SymbolId} {value : Expr}

/-- A formula takes one symbol for each of its names. -/
theorem length_eq (means : Means place formula ids value) : ids.length = formula.names.length := by
  induction means with
  | number | name | here => rfl
  | negate _ ih => exact ih
  | add _ _ ihLeft ihRight | subtract _ _ ihLeft ihRight | multiply _ _ _ ihLeft ihRight =>
    simp [ihLeft, ihRight]

/-- Only whole formulas mean something. -/
theorem isWhole (means : Means place formula ids value) : formula.isWhole = true := by
  induction means with
  | number | name | here => rfl
  | negate _ ih => exact ih
  | add _ _ ihLeft ihRight | subtract _ _ ihLeft ihRight | multiply _ _ _ ihLeft ihRight =>
    rw [Formula.isWhole, ihLeft, ihRight]
    rfl

/-- The operands of a formula with a meaning are faultless. -/
theorem faultless (means : Means place formula ids value) :
    ∀ token ∈ formula.operands, token.Faultless := by
  induction means with
  | number denotes => simpa [operands, Token.Faultless] using denotes.toWellSpelled
  | name | here => simp [operands, Token.Faultless]
  | negate _ ih => exact ih
  | add _ _ ihLeft ihRight | subtract _ _ ihLeft ihRight | multiply _ _ _ ihLeft ihRight =>
    exact List.forall_mem_append.mpr ⟨ihLeft, ihRight⟩

end Means

/-- The marks in a derivation are faultless. -/
theorem Tree.faultless_of_not_isOperand {phrase : Phrase} (tree : Tree phrase) {token : Token}
    (mem : token ∈ tree.tokens) (isMark : token.isOperand = false) : token.Faultless := by
  have absent : Token.mark '\x00' ∉ tree.tokens := by
    clear mem
    induction tree <;> simp [tokens, *]
  cases token with
  | number | name => cases isMark
  | mark char =>
    rintro rfl
    exact absent mem

/-- A formula with a meaning comes from faultless tokens. -/
theorem Means.faultless_tokens {place : Option Location} {ids : List SymbolId} {value : Expr}
    {tree : Tree .sum} (means : Means place tree.formula ids value) :
    ∀ token ∈ tree.tokens, token.Faultless := by
  intro token mem
  cases isOperand : token.isOperand with
  | true =>
    refine means.faultless token ?_
    rw [operands_formula]
    exact List.mem_filter.mpr ⟨mem, isOperand⟩
  | false => exact tree.faultless_of_not_isOperand mem isOperand

/-! ### What evaluation asks for -/

section

variable {σ : Type}

/-- Ask a scope for the symbols of names, one after the other. -/
def Scope.requests (scope : Scope σ) : List String → σ → σ × List SymbolId
  | [], state => (state, [])
  | first :: rest, state =>
    let (middle, id) := scope.symbol first state
    let (after, ids) := scope.requests rest middle
    (after, id :: ids)

namespace Scope

variable (scope : Scope σ)

/-- Names in two parts are asked for one part after the other. -/
theorem requests_append (first second : List String) (state : σ) :
    scope.requests (first ++ second) state =
      ((scope.requests second (scope.requests first state).1).1,
        (scope.requests first state).2 ++
          (scope.requests second (scope.requests first state).1).2) := by
  induction first generalizing state with
  | nil => rfl
  | cons name rest ih => simp only [List.cons_append, requests, ih]

@[simp] theorem length_requests (names : List String) (state : σ) :
    (scope.requests names state).2.length = names.length := by
  induction names generalizing state with
  | nil => rfl
  | cons name rest ih => simp only [requests, List.length_cons, ih]

/-- A formula has a value once the symbols of its names are asked for. -/
def Gives (formula : Formula) (state after : σ) (value : Expr) : Prop :=
  ∃ ids, scope.requests formula.names state = (after, ids) ∧ Means scope.place formula ids value

variable {scope}

/-- A formula with a value has all its names asked for. -/
theorem Gives.after_eq {formula : Formula} {state after : σ} {value : Expr}
    (gives : scope.Gives formula state after value) :
    after = (scope.requests formula.names state).1 := by
  obtain ⟨ids, asked, _⟩ := gives
  rw [asked]

/-- Two formulas are joined if both have values, the left one first, and these can be joined. -/
theorem gives_join_iff {left right joined : Formula}
    (joins : Joins left right joined combine)
    {state after : σ} {value : Expr} :
    scope.Gives joined state after value ↔
      ∃ middle a b, scope.Gives left state middle a ∧ scope.Gives right middle after b ∧
        combine a b = .ok value := by
  have names_eq : joined.names = left.names ++ right.names := by cases joins <;> simp
  simp only [Gives, names_eq, requests_append, joins.means_iff]
  constructor
  · rintro ⟨ids, asked, first, second, a, b, rfl, isLeft, isRight, joins⟩
    obtain ⟨isAfter, ids⟩ := Prod.mk.inj asked
    -- Both lists have a symbol for each name, so they are split at the same place.
    obtain ⟨rfl, rfl⟩ := List.append_inj ids (by rw [length_requests, isLeft.length_eq])
    exact ⟨_, a, b, ⟨_, rfl, isLeft⟩, ⟨_, Prod.ext isAfter rfl, isRight⟩, joins⟩
  · rintro ⟨middle, a, b, ⟨first, asked, isLeft⟩, ⟨second, askedLater, isRight⟩, joins⟩
    refine ⟨first ++ second, ?_, first, second, a, b, rfl, isLeft, isRight, joins⟩
    simp only [asked, askedLater]

end Scope

namespace Evaluation

variable {first left right : Evaluation σ} {next : Expr → Evaluation σ} {state after : σ}
  {value : Expr}

/-- One evaluation after another gives a value if both do. -/
theorem andThen_eq_ok_iff :
    first.andThen next state = (after, .ok value) ↔
      ∃ middle before, first state = (middle, .ok before) ∧
        next before middle = (after, .ok value) := by
  unfold andThen
  split
  · next middle before succeeded => simp [succeeded]
  · next middle problem failed => simp [failed]

theorem done_eq_ok_iff {result : Except Problem Expr} :
    done result state = (after, .ok value) ↔ state = after ∧ result = .ok value :=
  Prod.mk.injEq .. ▸ Iff.rfl

/-- A join gives a value if both sides do and their values can be combined. -/
theorem join_eq_ok_iff :
    join left right combine state = (after, .ok value) ↔
      ∃ middle a b, left state = (middle, .ok a) ∧ right middle = (after, .ok b) ∧
        combine a b = .ok value := by
  simp only [join, andThen_eq_ok_iff, done_eq_ok_iff]
  grind

end Evaluation

/-- Evaluation gives the expression that a formula stands for. -/
theorem eval_eq_ok_iff {scope : Scope σ} {formula : Formula} {state after : σ} {value : Expr} :
    formula.eval scope state = (after, .ok value) ↔ scope.Gives formula state after value := by
  induction formula generalizing state after value with
  | number text =>
    constructor
    · intro evaluated
      cases isRead : Text.Literal.read text.toList with
      | none => simp [eval, isRead, Evaluation.done] at evaluated
      | some number =>
        simp only [eval, isRead, Evaluation.done_eq_ok_iff] at evaluated
        obtain ⟨rfl, ⟨⟩⟩ := evaluated
        exact ⟨[], rfl, .number (Text.Literal.read_eq_some_iff.mp isRead)⟩
    · rintro ⟨ids, ⟨⟩, means⟩
      cases means with
      | number denotes => simp [eval, Text.Literal.read_eq_some_iff.mpr denotes, Evaluation.done]
  | name text =>
    constructor
    · rintro ⟨⟩
      exact ⟨_, rfl, .name text _⟩
    · rintro ⟨ids, ⟨⟩, means⟩
      cases means
      rfl
  | here =>
    constructor
    · intro evaluated
      cases placed : scope.place with
      | none => simp [eval, placed, Evaluation.done] at evaluated
      | some location =>
        simp only [eval, placed, Evaluation.done_eq_ok_iff] at evaluated
        obtain ⟨rfl, ⟨⟩⟩ := evaluated
        exact ⟨[], rfl, .here placed⟩
    · rintro ⟨ids, ⟨⟩, means⟩
      cases means with
      | here placed => simp [eval, placed, Evaluation.done]
  | negate operand ih =>
    simp only [eval, Evaluation.andThen_eq_ok_iff, Evaluation.done_eq_ok_iff, ih]
    constructor
    · rintro ⟨middle, before, ⟨ids, asked, means⟩, rfl, ⟨⟩⟩
      exact ⟨ids, asked, .negate means⟩
    · rintro ⟨ids, asked, means⟩
      cases means with
      | negate means => exact ⟨after, _, ⟨ids, asked, means⟩, rfl, rfl⟩
  | add left right ihLeft ihRight | subtract left right ihLeft ihRight
  | multiply left right ihLeft ihRight =>
    simp only [eval, Evaluation.join_eq_ok_iff, ihLeft, ihRight]
    exact (Scope.gives_join_iff (by constructor)).symm
  | unclosed | unexpected | unexpectedEnd | followed =>
    constructor
    · intro evaluated
      simp [eval, Evaluation.andThen_eq_ok_iff, Evaluation.done_eq_ok_iff] at evaluated
    · rintro ⟨ids, asked, means⟩
      cases means

/-- A last step without names asks for nothing. -/
theorem Evaluation.fst_andThen_done (first : Evaluation σ) (result : Expr → Except Problem Expr)
    (state : σ) : (first.andThen (fun value => done (result value)) state).1 = (first state).1 := by
  unfold andThen
  split
  · next succeeded => exact (congrArg Prod.fst succeeded).symm
  · next failed => exact (congrArg Prod.fst failed).symm

/-- Evaluation has asked for some of the names, from the left. -/
def Asked (scope : Scope σ) (names : List String) (evaluation : Evaluation σ) : Prop :=
  ∀ state, ∃ asked, asked <+: names ∧ (evaluation state).1 = (scope.requests asked state).1

theorem Asked.done (scope : Scope σ) (names : List String) (result : Except Problem Expr) :
    Asked scope names (.done result) :=
  fun _ => ⟨[], List.nil_prefix, rfl⟩

/-- A last step without names leaves what was asked for. -/
theorem Asked.andThen_done {scope : Scope σ} {names : List String} {first : Evaluation σ}
    (asked : Asked scope names first) (result : Expr → Except Problem Expr) :
    Asked scope names (first.andThen fun value => .done (result value)) := by
  intro state
  rw [Evaluation.fst_andThen_done]
  exact asked state

/-- If there is a value on the left, all names on the left were asked for. -/
theorem Asked.join {scope : Scope σ} {left right : Formula}
    (askedLeft : Asked scope left.names (left.eval scope))
    (askedRight : Asked scope right.names (right.eval scope))
    (combine : Expr → Expr → Except Problem Expr) :
    Asked scope (left.names ++ right.names)
      (.join (left.eval scope) (right.eval scope) combine) := by
  intro state
  cases evaluated : left.eval scope state with | mk middle result =>
  cases result with
  | error problem =>
    obtain ⟨asked, begins, same⟩ := askedLeft state
    refine ⟨asked, begins.trans (List.prefix_append _ _), ?_⟩
    rw [← same, Evaluation.join, Evaluation.andThen, evaluated]
  | ok value =>
    obtain ⟨asked, begins, same⟩ := askedRight middle
    refine ⟨left.names ++ asked, (List.prefix_append_right_inj _).mpr begins, ?_⟩
    rw [Scope.requests_append, ← (eval_eq_ok_iff.mp evaluated).after_eq, ← same, Evaluation.join,
      Evaluation.andThen, evaluated]
    exact Evaluation.fst_andThen_done (right.eval scope) (combine value) middle

/-- Evaluation asks for names from the left, whether it gives a value or not. -/
theorem asked_eval (scope : Scope σ) (formula : Formula) :
    Asked scope formula.names (formula.eval scope) := by
  induction formula with
  | number | here =>
    rw [eval]
    split <;> exact .done _ _ _
  | name text => exact fun state => ⟨[text], List.prefix_refl _, rfl⟩
  | negate operand ih => exact ih.andThen_done _
  | add left right ihLeft ihRight => exact names_add left right ▸ ihLeft.join ihRight _
  | subtract left right ihLeft ihRight => exact names_subtract left right ▸ ihLeft.join ihRight _
  | multiply left right ihLeft ihRight => exact names_multiply left right ▸ ihLeft.join ihRight _
  | unclosed inner ih | followed inner token ih => exact ih.andThen_done _
  | unexpected | unexpectedEnd => exact .done _ _ _

/-! ### The values of texts -/

/-- Tokens have at most one derivation. -/
theorem Tree.eq_of_tokens_eq {first second : Tree .sum} (same : first.tokens = second.tokens) :
    first = second :=
  (@eq_of_tokens _ first second [] [] (fun _ none => by cases none) (fun _ none => by cases none)
    (by rw [same])).1

/-- Tokens spell a formula with a value exactly if they derive from the grammar, and the value is
what the formula of the derivation stands for. -/
theorem gives_ofTokens_iff {scope : Scope σ} {tokens : List Token} {state after : σ}
    {value : Expr} :
    scope.Gives (ofTokens tokens) state after value ↔
      ∃ tree : Tree .sum, tree.tokens = tokens ∧ ∃ ids,
        scope.requests (Token.names tokens) state = (after, ids) ∧
          Means scope.place tree.formula ids value := by
  constructor
  · rintro ⟨ids, asked, means⟩
    obtain ⟨tree, rfl⟩ := exists_tree_of_isWhole means.isWhole
    rw [ofTokens_tokens] at asked means
    exact ⟨tree, rfl, ids, tree.names_formula ▸ asked, means⟩
  · rintro ⟨tree, rfl, ids, asked, means⟩
    rw [ofTokens_tokens]
    exact ⟨ids, tree.names_formula ▸ asked, means⟩

/-- The formula of tokens has the first of their names. -/
theorem names_ofTokens (tokens : List Token) : (ofTokens tokens).names <+: Token.names tokens := by
  rw [names, ← Token.names_operands tokens]
  exact (operands_ofTokens tokens).filterMap Token.name?

/-- A text falls into tokens in one way. It has a value exactly if the tokens are faultless, derive
from the grammar, and the formula of the one derivation stands for an expression, which then is the
value. The symbols asked for are those of the names in the text, from left to right: of all of them
if there is a value, and else of the first ones. -/
theorem eval_ofText_iff (scope : Scope σ) (state : σ) (text : String) :
    ∃ tokens, (∀ other, Token.Lexes (Token.content text) other ↔ other = tokens) ∧
      (∃ asked, asked <+: Token.names tokens ∧
        ((ofText text).eval scope state).1 = (scope.requests asked state).1) ∧
      ∀ after value, (ofText text).eval scope state = (after, .ok value) ↔
        (∀ token ∈ tokens, token.Faultless) ∧
        ∃ tree : Tree .sum, tree.tokens = tokens ∧
          (∀ other : Tree .sum, other.tokens = tokens → other = tree) ∧
          ∃ ids, scope.requests (Token.names tokens) state = (after, ids) ∧
            Means scope.place tree.formula ids value := by
  refine ⟨Token.ofText text, fun other => ?_, ?_, fun after value => ?_⟩
  · rw [Token.lexes_iff, Token.ofText_eq]
  · obtain ⟨asked, begins, same⟩ := asked_eval scope (ofText text) state
    exact ⟨asked, begins.trans (names_ofTokens _), same⟩
  · rw [eval_eq_ok_iff, ofText, gives_ofTokens_iff]
    constructor
    · rintro ⟨tree, derives, ids, asked, means⟩
      exact ⟨derives ▸ means.faultless_tokens, tree, derives,
        fun other same => Tree.eq_of_tokens_eq (same.trans derives.symm), ids, asked, means⟩
    · rintro ⟨_, tree, derives, _, gives⟩
      exact ⟨tree, derives, gives⟩

end

end Formula

end Assembler
