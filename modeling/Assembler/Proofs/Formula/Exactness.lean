import Assembler.Proofs.Expr.Algebra
import Assembler.Proofs.Formula.Evaluation
import Assembler.Proofs.Symbol.Names

/-!
# Exact values of formulas

Given integers for its names and for the current position, a formula has a value in unbounded
arithmetic (`Formula.worth`). The expression that it is read as has words for coefficients, and they
wrap where factors, sums and signs bring them out of range: only a single factor is refused for
being no word. So the value of the expression is that of the formula up to a multiple of `2 ^ 64`
(`Means.value_modEq`), with an exact constant (`Means.constant_eq`), and it is exactly that of the
formula for all integers if and only if the formula counts every name as often as a word can say
(`Means.exact_iff`).
-/

namespace Int64

/-- Words that agree up to a multiple of `2 ^ 64` are equal. -/
theorem eq_of_toInt_modEq {left right : Int64} (same : left.toInt ≡ right.toInt [ZMOD 2 ^ 64]) :
    left = right := by
  have lowLeft := left.le_toInt
  have highLeft := left.toInt_lt
  have lowRight := right.le_toInt
  have highRight := right.toInt_lt
  rw [Int.ModEq] at same
  exact Int64.toInt_inj.mp (by omega)

end Int64

namespace Assembler

namespace Expr

/-- All bases of an expression are allowed ones. -/
def Within (allowed : Base → Prop) (expr : Expr) : Prop := ∀ term ∈ expr.terms, allowed term.base

variable {allowed : Base → Prop} {left right : Expr}

/-- A sum is over the bases that its parts are allowed. -/
theorem Within.add (isLeft : left.Within allowed) (isRight : right.Within allowed) :
    (left.add right).Within allowed := by
  intro term member
  rcases base_of_mem_insertTerms member with ⟨old, inLeft, same⟩ | ⟨added, inRight, same⟩
  · exact same ▸ isLeft old inLeft
  · exact same ▸ isRight added inRight

/-- A multiple is over the same bases. -/
theorem Within.scale {expr : Expr} (within : expr.Within allowed) (factor : Int64) :
    (expr.scale factor).Within allowed := by
  intro term member
  obtain ⟨own, isOwn, rfl⟩ := List.mem_map.mp (List.mem_of_mem_filter member)
  exact within own isOwn

end Expr

namespace Formula

/-- The value of a formula in exact arithmetic, given integers for names and for the current
position. What is no formula counts for nothing. -/
def worth (names : String → Int) (here : Int) : Formula → Int
  | .number text => ((Text.Literal.read text.toList).getD 0 : Nat)
  | .name text => names text
  | .here => here
  | .negate operand => -operand.worth names here
  | .add left right => left.worth names here + right.worth names here
  | .subtract left right => left.worth names here - right.worth names here
  | .multiply left right => left.worth names here * right.worth names here
  | .unclosed inner | .followed inner _ => inner.worth names here
  | .unexpected _ | .unexpectedEnd => 0

/-! ### Constants and remainders -/

section

variable {left right value : Expr} (multiplies : Multiplies left right value)
include multiplies

/-- The product of well-formed expressions is well formed. -/
theorem Multiplies.formed (isLeft : left.Formed) (isRight : right.Formed) : value.Formed := by
  cases multiplies with
  | constants => exact .ofInt _
  | scaleLeft => exact .scale _ isLeft
  | scaleRight => exact .scale _ isRight

/-- The constant of a product is the exact product of the constants. -/
theorem Multiplies.constant_eq : value.constant = left.constant * right.constant := by
  cases multiplies with
  | constants => rfl
  | scaleLeft _ _ word =>
    rw [Expr.scale, isWord_iff_toInt_ofInt.mp word]
  | scaleRight _ _ word =>
    rw [Expr.scale, isWord_iff_toInt_ofInt.mp word, Int.mul_comm]

/-- The value of a product, up to the wrapping of coefficients. -/
theorem Multiplies.value_modEq (isLeft : left.Normal) (isRight : right.Normal)
    (assignment : Base → Int) :
    value.value assignment ≡ left.value assignment * right.value assignment [ZMOD 2 ^ 64] := by
  have constant : ∀ {expr : Expr}, expr.isConstant = true →
      expr.value assignment = expr.constant := by
    intro expr isConstant
    rw [Expr.value, List.isEmpty_iff.mp isConstant]
    simp
  cases multiplies with
  | constants isLeft isRight =>
    rw [constant isLeft, constant isRight]
    simp [Expr.value, Expr.ofInt, Int.ModEq]
  | scaleLeft _ isRight word =>
    have scaled := (isLeft.value_scale (Int64.ofInt right.constant) assignment).1
    rwa [constant isRight, Int.mul_comm, ← isWord_iff_toInt_ofInt.mp word, Int64.ofInt_toInt]
  | scaleRight isLeft _ word =>
    have scaled := (isRight.value_scale (Int64.ofInt left.constant) assignment).1
    rwa [constant isLeft, ← isWord_iff_toInt_ofInt.mp word, Int64.ofInt_toInt]

end

namespace Means

variable {place : Option Location} {formula : Formula} {ids : List SymbolId} {expr : Expr}

/-- What a formula means is well formed. -/
theorem formed (means : Means place formula ids expr) : expr.Formed := by
  induction means with
  | number => exact .ofInt _
  | name text id => exact .ofSymbol id
  | here => exact .ofLocation _
  | negate _ ih => exact .scale _ ih
  | add _ _ ihLeft ihRight => exact .add ihLeft ihRight
  | subtract _ _ ihLeft ihRight => exact .sub ihLeft ihRight
  | multiply _ _ multiplies ihLeft ihRight => exact multiplies.formed ihLeft ihRight

/-- The constant of an expression is exact: it is the value where all else is zero. -/
theorem constant_eq (means : Means place formula ids expr) :
    expr.constant = formula.worth (fun _ => 0) 0 := by
  have minus : (-1 : Int64).toInt = -1 := by decide
  induction means with
  | number denotes =>
    rw [worth, Text.Literal.read_eq_some_iff.mpr denotes]
    rfl
  | name text id =>
    unfold Expr.ofSymbol
    split <;> rfl
  | here => rfl
  | @negate _ _ value _ ih =>
    have scaled : (value.scale (-1)).constant = value.constant * (-1 : Int64).toInt := rfl
    rw [worth, ← ih, scaled, minus, Int.mul_neg_one]
  | add _ _ ihLeft ihRight => rw [worth, ← ihLeft, ← ihRight, Expr.add]
  | @subtract _ _ _ _ a b _ _ ihLeft ihRight =>
    have joined : (a.sub b).constant = a.constant + b.constant * (-1 : Int64).toInt := rfl
    rw [worth, ← ihLeft, ← ihRight, joined, minus, Int.mul_neg_one, Int.sub_eq_add_neg]
  | multiply _ _ multiplies ihLeft ihRight =>
    rw [worth, ← ihLeft, ← ihRight, multiplies.constant_eq]

/-- What holds of names and symbols in a row holds of the two parts of a formula. -/
theorem forall₂_parts {related : String → SymbolId → Prop} {left right : Formula}
    {first second : List SymbolId} {value : Expr} (isLeft : Means place left first value)
    (holds : List.Forall₂ related (left.names ++ right.names) (first ++ second)) :
    List.Forall₂ related left.names first ∧ List.Forall₂ related right.names second := by
  have taken := List.forall₂_take_append _ _ _ holds
  have dropped := List.forall₂_drop_append _ _ _ holds
  rw [isLeft.length_eq, List.take_left] at taken
  rw [isLeft.length_eq, List.drop_left] at dropped
  exact ⟨taken, dropped⟩

/-- The value of an expression is that of its formula up to a multiple of `2 ^ 64`. -/
theorem value_modEq (means : Means place formula ids expr) {assignment : Base → Int}
    {names : String → Int} {position : Int}
    (named : List.Forall₂ (fun name id => (Expr.ofSymbol id).value assignment = names name)
      formula.names ids)
    (placed : ∀ location, place = some location → assignment (.place location) = position) :
    expr.value assignment ≡ formula.worth names position [ZMOD 2 ^ 64] := by
  have minus : (-1 : Int64).toInt = -1 := by decide
  induction means with
  | number denotes =>
    rw [worth, Text.Literal.read_eq_some_iff.mpr denotes]
    simp [Expr.value, Expr.ofInt, Int.ModEq]
  | name text id =>
    obtain ⟨same, _⟩ := List.forall₂_cons.mp named
    rw [same]
    rfl
  | @here location isPlace =>
    rw [Expr.value, worth, ← placed location isPlace]
    simp [Expr.ofLocation, Int.ModEq]
  | @negate _ _ value means ih =>
    have scaled := (means.formed.normal.value_scale (-1) assignment).1
    rw [minus] at scaled
    rw [worth, ← Int.neg_one_mul]
    exact scaled.trans ((ih named).mul_left (-1))
  | @add left right _ _ a b isLeft isRight ihLeft ihRight =>
    obtain ⟨namedLeft, namedRight⟩ := isLeft.forall₂_parts (names_add left right ▸ named)
    have sum := (isLeft.formed.normal.value_add isRight.formed.normal assignment).1
    exact sum.trans ((ihLeft namedLeft).add (ihRight namedRight))
  | @subtract left right _ _ a b isLeft isRight ihLeft ihRight =>
    obtain ⟨namedLeft, namedRight⟩ := isLeft.forall₂_parts (names_subtract left right ▸ named)
    have scaled := (isRight.formed.normal.value_scale (-1) assignment).1
    have sum := (isLeft.formed.normal.value_add (isRight.formed.normal.scale (-1)) assignment).1
    rw [minus] at scaled
    rw [worth, Int.sub_eq_add_neg, ← Int.neg_one_mul]
    exact sum.trans ((ihLeft namedLeft).add (scaled.trans ((ihRight namedRight).mul_left (-1))))
  | @multiply left right _ _ a b value isLeft isRight multiplies ihLeft ihRight =>
    obtain ⟨namedLeft, namedRight⟩ := isLeft.forall₂_parts (names_multiply left right ▸ named)
    have product := multiplies.value_modEq isLeft.formed.normal isRight.formed.normal assignment
    exact product.trans ((ihLeft namedLeft).mul (ihRight namedRight))

/-- An expression has the bases of its symbols and of the place. -/
theorem within (means : Means place formula ids expr) {allowed : Base → Prop}
    (symbols : ∀ id ∈ ids, (Expr.ofSymbol id).Within allowed)
    (places : ∀ location, place = some location → allowed (.place location)) :
    expr.Within allowed := by
  induction means with
  | number =>
    intro term member
    cases member
  | name text id => exact symbols id (List.mem_singleton_self id)
  | here isPlace =>
    intro term member
    rw [List.mem_singleton.mp member]
    exact places _ isPlace
  | negate _ ih => exact (ih symbols).scale (-1)
  | add _ _ ihLeft ihRight =>
    obtain ⟨left, right⟩ := List.forall_mem_append.mp symbols
    exact (ihLeft left).add (ihRight right)
  | subtract _ _ ihLeft ihRight =>
    obtain ⟨left, right⟩ := List.forall_mem_append.mp symbols
    exact (ihLeft left).add ((ihRight right).scale (-1))
  | multiply _ _ multiplies ihLeft ihRight =>
    obtain ⟨left, right⟩ := List.forall_mem_append.mp symbols
    cases multiplies with
    | constants => exact fun term member => by cases member
    | scaleLeft => exact (ihLeft left).scale _
    | scaleRight => exact (ihRight right).scale _

end Means

end Formula

/-! ### The scope of a symbol table -/

/-- Names get the numbers that they have in the table afterwards. -/
theorem SymbolTable.forall₂_requests {place : Option Location} {names : List String}
    {table after : SymbolTable} {ids : List SymbolId}
    (asked : (SymbolTable.scope place).requests names table = (after, ids)) :
    table.Lasts after ∧ List.Forall₂ (fun name id => after.find? name = some id) names ids := by
  induction names generalizing table ids with
  | nil =>
    cases asked
    exact ⟨.refl _, .nil⟩
  | cons first rest ih =>
    have stepwise : (SymbolTable.scope place).requests (first :: rest) table =
        (((SymbolTable.scope place).requests rest (table.intern first).1).1,
          (table.intern first).2 ::
            ((SymbolTable.scope place).requests rest (table.intern first).1).2) := rfl
    cases later : (SymbolTable.scope place).requests rest (table.intern first).1
    rw [stepwise, later] at asked
    cases asked
    obtain ⟨lasts, found⟩ := ih later
    exact ⟨(table.lasts_intern first).trans lasts,
      .cons (lasts.find? (table.find?_intern first)) found⟩

/-- The number of a name, or zero for none. -/
def SymbolTable.numberOf (table : SymbolTable) (name : String) : SymbolId :=
  (table.find? name).getD 0

/-- Symbols are those of names exactly if all names are known and each has its number. -/
theorem SymbolTable.forall₂_find?_iff {table : SymbolTable} {names : List String}
    {ids : List SymbolId} :
    List.Forall₂ (fun name id => table.find? name = some id) names ids ↔
      (∀ name ∈ names, table.find? name = some (table.numberOf name)) ∧
        ids = names.map table.numberOf := by
  induction names generalizing ids with
  | nil => simp
  | cons first rest ih =>
    rw [List.forall₂_cons_left_iff]
    constructor
    · rintro ⟨id, others, found, later, rfl⟩
      obtain ⟨known, rfl⟩ := ih.mp later
      have same : table.numberOf first = id := by rw [numberOf, found, Option.getD_some]
      rw [← same] at found
      exact ⟨List.forall_mem_cons.mpr ⟨found, known⟩, by rw [List.map_cons, same]⟩
    · rintro ⟨known, rfl⟩
      obtain ⟨found, others⟩ := List.forall_mem_cons.mp known
      exact ⟨_, _, found, ih.mpr ⟨others, rfl⟩, rfl⟩

/-- What bases stand for, given integers for names and for the current position. -/
def SymbolTable.assign (table : SymbolTable) (names : String → Int) (here : Int) : Base → Int
  | .symbol id => names (table.nameOf id)
  | .place _ => here

/-- Under an assignment by names, a symbol has the value of its name. -/
theorem SymbolTable.value_ofSymbol {table : SymbolTable} {name : String} {id : SymbolId}
    (found : table.find? name = some id) (names : String → Int) (here : Int) :
    (Expr.ofSymbol id).value (table.assign names here) = names name := by
  rw [Expr.ofSymbol, if_neg (ne_zero_of_find? found)]
  simp [Expr.value, assign, nameOf_of_find? found]

namespace Formula

/-- A formula counts every name and the current position as often as a word can say. -/
def HasWordCoefficients (formula : Formula) : Prop :=
  ∃ (weight : String → Int64) (share : Int64), ∀ names here,
    formula.worth names here = formula.worth (fun _ => 0) 0 +
      (∑ name ∈ formula.names.toFinset, (weight name).toInt * names name) + share.toInt * here

section

variable {place : Option Location} {formula : Formula} {ids : List SymbolId} {expr : Expr}
  {table : SymbolTable} (means : Means place formula ids expr)
  (found : List.Forall₂ (fun name id => table.find? name = some id) formula.names ids)
include means found

/-- What a formula means has the value of the formula, modulo `2 ^ 64`. -/
theorem Means.value_assign_modEq (names : String → Int) (here : Int) :
    expr.value (table.assign names here) ≡ formula.worth names here [ZMOD 2 ^ 64] :=
  means.value_modEq (found.imp fun _ _ isFound => SymbolTable.value_ofSymbol isFound names here)
    fun _ _ => rfl

/-- The value of an expression counts names and the current position by words. -/
theorem Means.exists_weights :
    ∃ (weight : String → Int64) (share : Int64), ∀ names here,
      expr.value (table.assign names here) = expr.constant +
        (∑ name ∈ formula.names.toFinset, (weight name).toInt * names name) +
          share.toInt * here := by
  classical
  obtain ⟨known, rfl⟩ := SymbolTable.forall₂_find?_iff.mp found
  let symbols := formula.names.toFinset.image fun name => Base.symbol (table.numberOf name)
  let places := place.toFinset.image Base.place
  have nameOf : ∀ name ∈ formula.names.toFinset, table.nameOf (table.numberOf name) = name :=
    fun name member => SymbolTable.nameOf_of_find? (known name (List.mem_toFinset.mp member))
  have apart : Disjoint symbols places := by
    simp [symbols, places, Finset.disjoint_left]
  have among : expr.Within (· ∈ symbols ∪ places) := by
    refine means.within (fun id member => ?_) fun location isPlace => ?_
    · obtain ⟨name, isName, rfl⟩ := List.mem_map.mp member
      intro term isTerm
      rw [Expr.ofSymbol, if_neg (SymbolTable.ne_zero_of_find? (known name isName))] at isTerm
      rw [List.mem_singleton.mp isTerm]
      exact Finset.mem_union_left _ (Finset.mem_image_of_mem _ (List.mem_toFinset.mpr isName))
    · exact Finset.mem_union_right _
        (Finset.mem_image_of_mem _ (Option.mem_toFinset.mpr isPlace))
  refine ⟨fun name => Expr.coefficientOf expr.terms (.symbol (table.numberOf name)),
    place.elim 0 fun location => Expr.coefficientOf expr.terms (.place location),
    fun names here => ?_⟩
  have ofSymbols : ∑ base ∈ symbols,
      (Expr.coefficientOf expr.terms base).toInt * table.assign names here base =
        ∑ name ∈ formula.names.toFinset,
          (Expr.coefficientOf expr.terms (.symbol (table.numberOf name))).toInt * names name := by
    rw [Finset.sum_image]
    · refine Finset.sum_congr rfl fun name member => ?_
      rw [SymbolTable.assign, nameOf name member]
    · intro first isFirst second isSecond same
      rw [← nameOf first isFirst, Base.symbol.inj same, nameOf second isSecond]
  have ofPlaces : ∑ base ∈ places,
      (Expr.coefficientOf expr.terms base).toInt * table.assign names here base =
        (place.elim 0 fun location => Expr.coefficientOf expr.terms (.place location)).toInt *
          here := by
    cases place with
    | none => simp [places]
    | some location => simp [places, SymbolTable.assign]
  rw [Expr.value_eq_sum means.formed.normal.ordered among, Finset.sum_union apart, ofSymbols,
    ofPlaces, Int.add_assoc]

/-- An expression has the exact value of its formula for all integers if and only if the formula
counts its names and the current position by words. -/
theorem Means.exact_iff :
    (∀ names here, expr.value (table.assign names here) = formula.worth names here) ↔
      formula.HasWordCoefficients := by
  obtain ⟨weight, share, value⟩ := means.exists_weights found
  constructor
  · intro exact
    refine ⟨weight, share, fun names here => ?_⟩
    rw [← exact, value, means.constant_eq]
  · rintro ⟨count, part, worth⟩
    -- Both sides count by words, and words that agree up to `2 ^ 64` are equal.
    have congruent : ∀ (names : String → Int) (here : Int),
        (∑ name ∈ formula.names.toFinset, (weight name).toInt * names name) + share.toInt * here ≡
          (∑ name ∈ formula.names.toFinset, (count name).toInt * names name) + part.toInt * here
            [ZMOD 2 ^ 64] := by
      intro names here
      have close := means.value_assign_modEq found names here
      rw [value, worth, means.constant_eq, Int.add_assoc, Int.add_assoc] at close
      exact Int.ModEq.add_left_cancel' _ close
    have sameShare : share = part := by
      refine Int64.eq_of_toInt_modEq ?_
      simpa using congruent (fun _ => 0) 1
    have sameWeight : ∀ name ∈ formula.names.toFinset, weight name = count name := by
      intro name member
      refine Int64.eq_of_toInt_modEq ?_
      simpa [Finset.sum_ite_eq', Pi.single_apply, List.mem_toFinset.mp member] using
        congruent (Pi.single name 1) 0
    intro names here
    rw [value, worth, means.constant_eq, sameShare]
    congr 2
    exact Finset.sum_congr rfl fun name member => by rw [sameWeight name member]

end

/-- Of a text that is accepted, the expression has the exact constant, and its value is that of the
source formula up to a multiple of `2 ^ 64`. It is the exact value for all integers that names and
the current position may stand for if and only if the source formula counts them by words: else
coefficients have wrapped, and no error says so. -/
theorem eval_ofText_exact_iff {text : String} {place : Option Location}
    {table after : SymbolTable} {expr : Expr}
    (accepted : (ofText text).eval (SymbolTable.scope place) table = (after, .ok expr)) :
    ∃ tree : Tree .sum, Token.Lexes (Token.content text) tree.tokens ∧ ofText text = tree.formula ∧
      expr.constant = worth (fun _ => 0) 0 tree.formula ∧
      (∀ names here, expr.value (after.assign names here) ≡ worth names here tree.formula
        [ZMOD 2 ^ 64]) ∧
      ((∀ names here, expr.value (after.assign names here) = worth names here tree.formula) ↔
        HasWordCoefficients tree.formula) := by
  rw [eval_eq_ok_iff, ofText, gives_ofTokens_iff] at accepted
  obtain ⟨tree, derives, ids, asked, means⟩ := accepted
  obtain ⟨_, found⟩ := SymbolTable.forall₂_requests asked
  rw [← derives, ← tree.names_formula] at found
  refine ⟨tree, ?_, ?_, means.constant_eq, means.value_assign_modEq found, means.exact_iff found⟩
  · rw [Token.lexes_iff, ← Token.ofText_eq, derives]
  · rw [ofText, ← derives, ofTokens_tokens]

/-- Two coefficients that are words have a sum that is none: it wraps to a negative number. -/
theorem eval_ofText_sum_wraps :
    ∃ after expr, (ofText "9223372036854775807*x + x").eval (SymbolTable.scope none) {} =
        (after, .ok expr) ∧
      expr.value (after.assign (fun _ => 1) 0) = -9223372036854775808 ∧
      worth (fun _ => 1) 0 (ofText "9223372036854775807*x + x") = 9223372036854775808 ∧
      ¬ HasWordCoefficients (ofText "9223372036854775807*x + x") := by
  have result : ((ofText "9223372036854775807*x + x").eval (SymbolTable.scope none) {}).2 =
      .ok ⟨0, [⟨Int64.minValue, .symbol 1⟩]⟩ := by decide +kernel
  have isWorth : worth (fun _ => 1) 0 (ofText "9223372036854775807*x + x") =
      9223372036854775808 := by decide +kernel
  have isValue : ∀ table, (⟨0, [⟨Int64.minValue, .symbol 1⟩]⟩ : Expr).value
      (SymbolTable.assign table (fun _ => 1) 0) = -9223372036854775808 := by
    simp [Expr.value, SymbolTable.assign]
  cases accepted : (ofText "9223372036854775807*x + x").eval (SymbolTable.scope none) {}
  rw [accepted] at result
  cases result
  obtain ⟨tree, _, same, _, _, exact⟩ := eval_ofText_exact_iff accepted
  refine ⟨_, _, rfl, isValue _, isWorth, fun words => ?_⟩
  have equal := exact.mpr (same ▸ words) (fun _ => 1) 0
  rw [isValue, ← same, isWorth] at equal
  cases equal

end Formula

end Assembler
