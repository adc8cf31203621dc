import Assembler.Proofs.Formula.Grammar

/-!
# Reading formulas

The readers find every derivation (`Tree.reads`), so that the tokens of one spell its formula
(`ofTokens_tokens`). In turn a formula that they give is that of a derivation of the tokens they
took, unless it has a leaf that says what is wrong (`sound`, `exists_tree_of_isWhole`). Either way
the numbers and names in it are those that were taken (`operands_ofTokens`).
-/

namespace Assembler

/-- Whether a token is a number or a name. -/
def Token.isOperand : Token → Bool
  | .number _ | .name _ => true
  | .mark _ => false

/-- The numbers and names among tokens. -/
def Token.operands (tokens : List Token) : List Token := tokens.filter Token.isOperand

namespace Formula

/-- Whether no leaf says that the tokens do not fit. -/
def isWhole : Formula → Bool
  | .number _ | .name _ | .here => true
  | .negate operand => operand.isWhole
  | .add left right | .subtract left right | .multiply left right => left.isWhole && right.isWhole
  | .unclosed _ | .unexpected _ | .unexpectedEnd | .followed .. => false

/-- The numbers and names in a formula, from left to right. -/
def operands : Formula → List Token
  | .number text => [.number text]
  | .name text => [.name text]
  | .here | .unexpected _ | .unexpectedEnd => []
  | .negate operand => operand.operands
  | .add left right | .subtract left right | .multiply left right =>
    left.operands ++ right.operands
  | .unclosed inner | .followed inner _ => inner.operands

/-! ### Derivations are found -/

/-- A phrase is read from tokens with a value, with the rest of the tokens behind it. -/
def Phrase.Reads : (phrase : Phrase) → Nat → List Token → phrase.Value → List Token → Prop
  | .sum, fuel, tokens, value, rest => readSum fuel tokens = (value, rest)
  | .addends, fuel, tokens, value, rest =>
    ∀ left, readSumRest fuel left tokens = (value left, rest)
  | .product, fuel, tokens, value, rest => readProduct fuel tokens = (value, rest)
  | .factors, fuel, tokens, value, rest =>
    ∀ left, readProductRest fuel left tokens = (value left, rest)
  | .signed, fuel, tokens, value, rest => readSigned fuel tokens = (value, rest)
  | .primary, fuel, tokens, value, rest => readPrimary fuel tokens = (value, rest)

/-- How many readers are entered for a phrase before one takes a token. -/
def Phrase.depth : Phrase → Nat
  | .sum => 3
  | .product => 2
  | .signed => 1
  | .addends | .factors | .primary => 0

/-- A sum ends before tokens that cannot continue it. -/
theorem readSumRest_of_stops {rest : List Token} (stops : Phrase.addends.Stops rest) (fuel : Nat)
    (left : Formula) : readSumRest fuel left rest = (left, rest) := by
  unfold readSumRest
  split
  · rfl
  · exact absurd (stops _ rfl) (by decide)
  · exact absurd (stops _ rfl) (by decide)
  · rfl

/-- A product ends where nothing is multiplied. -/
theorem readProductRest_of_stops {rest : List Token} (stops : Phrase.factors.Stops rest)
    (fuel : Nat) (left : Formula) : readProductRest fuel left rest = (left, rest) := by
  unfold readProductRest
  split
  · rfl
  · exact absurd (stops _ rfl) (by decide)
  · rfl

/-- What begins with no sign is read as a primary. -/
theorem readSigned_of_primary (tree : Tree .primary) (fuel : Nat) (rest : List Token) :
    readSigned (fuel + 1) (tree.tokens ++ rest) = readPrimary fuel (tree.tokens ++ rest) := by
  obtain ⟨token, behind, begins, notMinus, notPlus⟩ := tree.head_primary
  rw [begins, List.cons_append]
  unfold readSigned
  split
  · next none => cases none
  · next isMinus => exact absurd (List.cons.inj isMinus).1 notMinus
  · next isPlus => exact absurd (List.cons.inj isPlus).1 notPlus
  · next same _ _ =>
    cases same
    rfl

/-- Every derivation is found, if what comes behind it does not belong to it and there is fuel for
five readers for each token. -/
theorem Tree.reads {phrase : Phrase} (tree : Tree phrase) {fuel : Nat} {rest : List Token}
    (stops : phrase.Stops rest) (enough : 5 * tree.tokens.length + phrase.depth ≤ fuel) :
    phrase.Reads fuel (tree.tokens ++ rest) tree.formula rest := by
  induction tree generalizing fuel rest with
  | sum product addends ihProduct ihAddends =>
    simp only [tokens, List.length_append, Phrase.depth] at enough ihProduct ihAddends
    obtain ⟨fuel, rfl⟩ := Nat.exists_eq_add_one_of_ne_zero (show fuel ≠ 0 by omega)
    have first : readProduct fuel (product.tokens ++ (addends.tokens ++ rest)) =
        (product.formula, addends.tokens ++ rest) :=
      ihProduct (stops_product addends stops) (by omega)
    simp only [Phrase.Reads, tokens, List.append_assoc, readSum, first]
    exact ihAddends stops (by omega) product.formula
  | noAddends => exact readSumRest_of_stops stops fuel
  | plus right more ihRight ihMore | minus right more ihRight ihMore =>
    simp only [tokens, List.length_cons, List.length_append, Phrase.depth] at enough ihRight ihMore
    obtain ⟨fuel, rfl⟩ := Nat.exists_eq_add_one_of_ne_zero (show fuel ≠ 0 by omega)
    have first : readProduct fuel (right.tokens ++ (more.tokens ++ rest)) =
        (right.formula, more.tokens ++ rest) :=
      ihRight (stops_product more stops) (by omega)
    simp only [Phrase.Reads, tokens, List.cons_append, List.append_assoc, readSumRest, first]
    exact fun left => ihMore stops (by omega) _
  | product signed factors ihSigned ihFactors =>
    simp only [tokens, List.length_append, Phrase.depth] at enough ihSigned ihFactors
    obtain ⟨fuel, rfl⟩ := Nat.exists_eq_add_one_of_ne_zero (show fuel ≠ 0 by omega)
    have first : readSigned fuel (signed.tokens ++ (factors.tokens ++ rest)) =
        (signed.formula, factors.tokens ++ rest) := ihSigned (stops_signed _) (by omega)
    simp only [Phrase.Reads, tokens, List.append_assoc, readProduct, first]
    exact ihFactors stops (by omega) signed.formula
  | noFactors => exact readProductRest_of_stops stops fuel
  | times right more ihRight ihMore =>
    simp only [tokens, List.length_cons, List.length_append, Phrase.depth] at enough ihRight ihMore
    obtain ⟨fuel, rfl⟩ := Nat.exists_eq_add_one_of_ne_zero (show fuel ≠ 0 by omega)
    have first : readSigned fuel (right.tokens ++ (more.tokens ++ rest)) =
        (right.formula, more.tokens ++ rest) := ihRight (stops_signed _) (by omega)
    simp only [Phrase.Reads, tokens, List.cons_append, List.append_assoc, readProductRest, first]
    exact fun left => ihMore stops (by omega) _
  | negative operand ih | positive operand ih =>
    simp only [tokens, List.length_cons, Phrase.depth] at enough ih
    obtain ⟨fuel, rfl⟩ := Nat.exists_eq_add_one_of_ne_zero (show fuel ≠ 0 by omega)
    have inner : readSigned fuel (operand.tokens ++ rest) = (operand.formula, rest) :=
      ih (stops_signed _) (by omega)
    simp only [Phrase.Reads, tokens, List.cons_append, readSigned, inner]
    rfl
  | unsigned operand ih =>
    simp only [tokens, Phrase.depth] at enough ih
    obtain ⟨fuel, rfl⟩ := Nat.exists_eq_add_one_of_ne_zero (show fuel ≠ 0 by omega)
    exact (readSigned_of_primary operand fuel rest).trans (ih (stops_primary _) (by omega))
  | number | name | here => cases fuel <;> rfl
  | group inner ih =>
    simp only [tokens, List.length_cons, List.length_append, List.length_nil, Phrase.depth]
      at enough ih
    obtain ⟨fuel, rfl⟩ := Nat.exists_eq_add_one_of_ne_zero (show fuel ≠ 0 by omega)
    have within : readSum fuel (inner.tokens ++ .mark ')' :: rest) =
        (inner.formula, .mark ')' :: rest) := ih (stops_sum _) (by omega)
    simp only [Phrase.Reads, tokens, List.cons_append, List.append_assoc, List.nil_append,
      readPrimary, within]
    rfl

/-! ### What is read has a derivation -/

/-- Some tokens were taken, the numbers and names among them stand in the formula behind others, and
if nothing is wrong they have a derivation. -/
def Took {phrase : Phrase} (value : Tree phrase → Formula) (before tokens : List Token)
    (result : Formula × List Token) : Prop :=
  ∃ taken, tokens = taken ++ result.2 ∧ result.1.operands = before ++ Token.operands taken ∧
    (result.1.isWhole = true → ∃ tree : Tree phrase, tree.tokens = taken ∧ value tree = result.1)

/-- With some fuel, every reader takes what its phrase derives. -/
structure Sound (fuel : Nat) : Prop where
  sum : ∀ tokens, Took (fun tree : Tree .sum => tree.formula) [] tokens (readSum fuel tokens)
  addends : ∀ left tokens, Took (fun tree : Tree .addends => tree.formula left) left.operands tokens
    (readSumRest fuel left tokens)
  product : ∀ tokens,
    Took (fun tree : Tree .product => tree.formula) [] tokens (readProduct fuel tokens)
  factors : ∀ left tokens, Took (fun tree : Tree .factors => tree.formula left) left.operands tokens
    (readProductRest fuel left tokens)
  signed : ∀ tokens,
    Took (fun tree : Tree .signed => tree.formula) [] tokens (readSigned fuel tokens)
  primary : ∀ tokens,
    Took (fun tree : Tree .primary => tree.formula) [] tokens (readPrimary fuel tokens)

/-- A formula that others are added to is whole if the sum is. -/
theorem Tree.isWhole_of_addends : (tree : Tree .addends) → (left : Formula) →
    Formula.isWhole (tree.formula left) = true → left.isWhole = true
  | .noAddends, _, whole => whole
  | .plus _ rest, _, whole => (Bool.and_eq_true_iff.mp (rest.isWhole_of_addends _ whole)).1
  | .minus _ rest, _, whole => (Bool.and_eq_true_iff.mp (rest.isWhole_of_addends _ whole)).1

/-- A formula that is multiplied by others is whole if the product is. -/
theorem Tree.isWhole_of_factors : (tree : Tree .factors) → (left : Formula) →
    Formula.isWhole (tree.formula left) = true → left.isWhole = true
  | .noFactors, _, whole => whole
  | .times _ rest, _, whole => (Bool.and_eq_true_iff.mp (rest.isWhole_of_factors _ whole)).1

namespace Took

/-- A problem takes no tokens. -/
theorem of_problem {phrase : Phrase} {value : Tree phrase → Formula} {problem : Formula}
    (unnamed : problem.operands = []) (wrong : problem.isWhole = false) (tokens : List Token) :
    Took value [] tokens (problem, tokens) :=
  ⟨[], rfl, unnamed, fun whole => by simp [wrong] at whole⟩

/-- Nothing was taken, and nothing is wrong with that. -/
theorem of_empty {phrase : Phrase} {value : Tree phrase → Formula} {left : Formula}
    {tree : Tree phrase} (empty : tree.tokens = []) (same : value tree = left)
    (tokens : List Token) : Took value left.operands tokens (left, tokens) :=
  ⟨[], rfl, (List.append_nil _).symm, fun _ => ⟨tree, empty, same⟩⟩

/-- One phrase was taken behind a sign, and then another. -/
theorem join {one two phrase : Phrase} {valueOne : Tree one → Formula}
    {valueTwo : Tree two → Formula} {value : Tree phrase → Formula}
    {before sign tokens middle : List Token} {right : Formula} {result : Formula × List Token}
    (unnamed : Token.operands sign = []) (first : Took valueOne [] tokens (right, middle))
    (later : Took valueTwo (before ++ right.operands) middle result)
    (whole : ∀ tree, (valueTwo tree).isWhole = true → right.isWhole = true)
    (glue : ∀ left behind, valueOne left = right → ∃ tree : Tree phrase,
      tree.tokens = sign ++ (left.tokens ++ behind.tokens) ∧ value tree = valueTwo behind) :
    Took value before (sign ++ tokens) result := by
  obtain ⟨taken, rfl, operands, derives⟩ := first
  obtain ⟨more, split, moreOperands, derivesMore⟩ := later
  dsimp only at split operands derives
  subst split
  refine ⟨sign ++ (taken ++ more), by simp, ?_, fun isWhole => ?_⟩
  · simp only [Token.operands, List.filter_append] at unnamed operands moreOperands ⊢
    rw [moreOperands, operands, unnamed, List.nil_append, List.nil_append, List.append_assoc]
  · obtain ⟨behind, rfl, same⟩ := derivesMore isWhole
    obtain ⟨left, rfl, isRight⟩ := derives (whole behind (same ▸ isWhole))
    obtain ⟨tree, tokens, equal⟩ := glue left behind isRight
    exact ⟨tree, tokens, equal.trans same⟩

/-- What is taken after a mark is taken together with it. -/
theorem behind_mark {one phrase : Phrase} {valueOne : Tree one → Formula}
    {value : Tree phrase → Formula} {char : Char} {tokens rest : List Token} {inner outer : Formula}
    (took : Took valueOne [] tokens (inner, rest)) (same : outer.operands = inner.operands)
    (whole : outer.isWhole = true → inner.isWhole = true)
    (glue : ∀ operand, valueOne operand = inner → ∃ tree : Tree phrase,
      tree.tokens = .mark char :: operand.tokens ∧ value tree = outer) :
    Took value [] (.mark char :: tokens) (outer, rest) := by
  obtain ⟨taken, rfl, operands, derives⟩ := took
  refine ⟨.mark char :: taken, rfl, same.trans operands, fun isWhole => ?_⟩
  obtain ⟨operand, rfl, isInner⟩ := derives (whole isWhole)
  exact glue operand isInner

/-- A primary is taken, if what is between parentheses is. -/
theorem primary {fuel : Nat}
    (inner : ∀ less, fuel = less + 1 → ∀ tokens,
      Took (fun tree : Tree .sum => tree.formula) [] tokens (readSum less tokens))
    (tokens : List Token) :
    Took (fun tree : Tree .primary => tree.formula) [] tokens (readPrimary fuel tokens) := by
  unfold readPrimary
  split
  · next text _ => exact ⟨[.number text], rfl, rfl, fun _ => ⟨.number text, rfl, rfl⟩⟩
  · next text _ => exact ⟨[.name text], rfl, rfl, fun _ => ⟨.name text, rfl, rfl⟩⟩
  · exact ⟨[.mark '$'], rfl, rfl, fun _ => ⟨.here, rfl, rfl⟩⟩
  · next less tokens =>
    have took := inner less rfl tokens
    split
    · next sum rest closed =>
      rw [closed] at took
      obtain ⟨taken, rfl, operands, derives⟩ := took
      refine ⟨.mark '(' :: (taken ++ [.mark ')']), by simp, ?_, fun isWhole => ?_⟩
      · simpa [Token.operands, Token.isOperand] using operands
      · obtain ⟨tree, rfl, same⟩ := derives isWhole
        exact ⟨.group tree, rfl, same⟩
    · next sum rest _ unclosed =>
      rw [unclosed] at took
      obtain ⟨taken, rfl, operands, _⟩ := took
      exact ⟨.mark '(' :: taken, rfl, operands, fun isWhole => by cases isWhole⟩
  · exact .of_problem rfl rfl _
  · exact .of_problem rfl rfl _

end Took

/-- Without fuel, nothing is taken but primaries. -/
theorem sound_zero : Sound 0 where
  sum tokens := .of_problem rfl rfl tokens
  addends left tokens := @Took.of_empty _ _ left .noAddends rfl rfl tokens
  product tokens := .of_problem rfl rfl tokens
  factors left tokens := @Took.of_empty _ _ left .noFactors rfl rfl tokens
  signed tokens := .of_problem rfl rfl tokens
  primary := Took.primary fun _ none => by cases none

/-- One more reader takes what its phrase derives if those that it enters do. -/
theorem Sound.succ {fuel : Nat} (sound : Sound fuel) : Sound (fuel + 1) where
  sum tokens := by
    refine @Took.join .product .addends .sum _ _ _ [] [] tokens _ _ _ rfl (sound.product tokens)
      (sound.addends _ _) (fun tree => tree.isWhole_of_addends _) ?_
    exact fun left behind same => ⟨.sum left behind, rfl, congrArg behind.formula same⟩
  addends left tokens := by
    unfold readSumRest
    split
    · next none => cases none
    · next left _ _ _ less tokens same =>
      cases same
      refine @Took.join .product .addends .addends _ _ _ left.operands [.mark '+'] tokens _ _ _ rfl
        (sound.product tokens) (sound.addends _ _) (fun tree whole => ?_)
        fun right behind same => ?_
      · exact (Bool.and_eq_true_iff.mp (tree.isWhole_of_addends _ whole)).2
      · exact ⟨.plus right behind, rfl,
          congrArg (fun value => behind.formula (.add left value)) same⟩
    · next left _ _ _ less tokens same =>
      cases same
      refine @Took.join .product .addends .addends _ _ _ left.operands [.mark '-'] tokens _ _ _ rfl
        (sound.product tokens) (sound.addends _ _) (fun tree whole => ?_)
        fun right behind same => ?_
      · exact (Bool.and_eq_true_iff.mp (tree.isWhole_of_addends _ whole)).2
      · exact ⟨.minus right behind, rfl,
          congrArg (fun value => behind.formula (.subtract left value)) same⟩
    · exact @Took.of_empty _ _ _ .noAddends rfl rfl _
  product tokens := by
    refine @Took.join .signed .factors .product _ _ _ [] [] tokens _ _ _ rfl (sound.signed tokens)
      (sound.factors _ _) (fun tree => tree.isWhole_of_factors _) ?_
    exact fun left behind same => ⟨.product left behind, rfl, congrArg behind.formula same⟩
  factors left tokens := by
    unfold readProductRest
    split
    · next none => cases none
    · next left _ _ _ less tokens same =>
      cases same
      refine @Took.join .signed .factors .factors _ _ _ left.operands [.mark '*'] tokens _ _ _ rfl
        (sound.signed tokens) (sound.factors _ _) (fun tree whole => ?_)
        fun right behind same => ?_
      · exact (Bool.and_eq_true_iff.mp (tree.isWhole_of_factors _ whole)).2
      · exact ⟨.times right behind, rfl,
          congrArg (fun value => behind.formula (.multiply left value)) same⟩
    · exact @Took.of_empty _ _ _ .noFactors rfl rfl _
  signed tokens := by
    unfold readSigned
    split
    · next none => cases none
    · next less tokens same =>
      cases same
      exact Took.behind_mark (sound.signed tokens) rfl (fun whole => whole)
        fun operand same => ⟨.negative operand, rfl, congrArg Formula.negate same⟩
    · next less tokens same =>
      cases same
      exact Took.behind_mark (sound.signed tokens) rfl (fun whole => whole)
        fun operand same => ⟨.positive operand, rfl, same⟩
    · next less same _ _ =>
      cases same
      obtain ⟨taken, split, operands, derives⟩ := sound.primary _
      refine ⟨taken, split, operands, fun isWhole => ?_⟩
      obtain ⟨tree, tokens, same⟩ := derives isWhole
      exact ⟨.unsigned tree, tokens, same⟩
  primary := Took.primary fun less same => by
    cases same
    exact sound.sum

/-- Every reader takes what its phrase derives. -/
theorem sound (fuel : Nat) : Sound fuel := by
  induction fuel with
  | zero => exact sound_zero
  | succ fuel ih => exact ih.succ

/-- The numbers and names in the formula that tokens spell come first among the tokens. -/
theorem operands_ofTokens (tokens : List Token) :
    (ofTokens tokens).operands <+: Token.operands tokens := by
  obtain ⟨taken, split, operands, _⟩ := (sound (fuelFor tokens.length)).sum tokens
  have begins : Token.operands taken <+: Token.operands tokens :=
    ⟨Token.operands (readSum (fuelFor tokens.length) tokens).2, by
      rw [Token.operands, Token.operands, ← List.filter_append, ← split]
      rfl⟩
  rw [List.nil_append] at operands
  unfold ofTokens
  split
  · next formula ends =>
    rw [ends] at operands
    exact operands ▸ begins
  · next formula token rest ends =>
    rw [ends] at operands
    exact operands ▸ begins

/-- The tokens of a derivation are read as its formula. -/
theorem readSum_tokens (tree : Tree .sum) :
    readSum (fuelFor tree.tokens.length) tree.tokens = (tree.formula, []) := by
  have reads : readSum (fuelFor tree.tokens.length) (tree.tokens ++ []) = (tree.formula, []) :=
    tree.reads (fun _ none => by cases none) (by simp only [fuelFor, Phrase.depth]; omega)
  rwa [List.append_nil] at reads

/-- The formula that the tokens of a derivation spell. -/
theorem ofTokens_tokens (tree : Tree .sum) : ofTokens tree.tokens = tree.formula := by
  rw [ofTokens, readSum_tokens]

/-- The formula of a derivation has all numbers and names among its tokens. -/
theorem operands_formula (tree : Tree .sum) :
    Formula.operands tree.formula = Token.operands tree.tokens := by
  obtain ⟨taken, split, operands, _⟩ := (sound (fuelFor tree.tokens.length)).sum tree.tokens
  rw [readSum_tokens] at split operands
  rw [split, List.append_nil]
  exact operands

/-- Tokens spell a formula with nothing wrong only if they have a derivation. -/
theorem exists_tree_of_isWhole {tokens : List Token} (whole : (ofTokens tokens).isWhole = true) :
    ∃ tree : Tree .sum, tree.tokens = tokens := by
  obtain ⟨taken, split, _, derives⟩ := (sound (fuelFor tokens.length)).sum tokens
  unfold ofTokens at whole
  split at whole
  · next formula ends =>
    rw [ends] at split derives
    obtain ⟨tree, isTaken, _⟩ := derives whole
    exact ⟨tree, by rw [isTaken, split, List.append_nil]⟩
  · cases whole

end Formula

end Assembler
