import Assembler.Formula.Basic

/-!
# The grammar of formulas

    sum     = product (('+' | '-') product)*
    product = signed ('*' signed)*
    signed  = ('-' | '+') signed | primary
    primary = number | name | '$' | '(' sum ')'

A derivation of a phrase (`Formula.Tree`) spells tokens and stands for a formula, in which sums and
products are joined from left to right. The tokens and what comes behind them leave no choice of the
derivation (`Tree.eq_of_tokens`).
-/

namespace Assembler.Formula

/-- The phrases of the grammar. -/
inductive Phrase where
  | sum
  /-- What is added to a product and subtracted from it. -/
  | addends
  | product
  /-- What a signed formula is multiplied by. -/
  | factors
  | signed
  | primary

/-- The derivations of a phrase. -/
inductive Tree : Phrase → Type where
  | sum (first : Tree .product) (rest : Tree .addends) : Tree .sum
  | noAddends : Tree .addends
  | plus (right : Tree .product) (rest : Tree .addends) : Tree .addends
  | minus (right : Tree .product) (rest : Tree .addends) : Tree .addends
  | product (first : Tree .signed) (rest : Tree .factors) : Tree .product
  | noFactors : Tree .factors
  | times (right : Tree .signed) (rest : Tree .factors) : Tree .factors
  | negative (operand : Tree .signed) : Tree .signed
  | positive (operand : Tree .signed) : Tree .signed
  | unsigned (operand : Tree .primary) : Tree .signed
  | number (text : String) : Tree .primary
  | name (text : String) : Tree .primary
  | here : Tree .primary
  | group (inner : Tree .sum) : Tree .primary

/-- What a phrase stands for: a formula, or what it makes of the formula before it. -/
def Phrase.Value : Phrase → Type
  | .addends | .factors => Formula → Formula
  | .sum | .product | .signed | .primary => Formula

/-- Whether a token that comes behind a phrase would still belong to it. -/
def Phrase.goesOn : Phrase → Token → Bool
  | .sum, token | .addends, token =>
    token = .mark '+' || token = .mark '-' || token = .mark '*'
  | .product, token | .factors, token => token = .mark '*'
  | .signed, _ | .primary, _ => false

/-- A phrase ends before the tokens given. -/
def Phrase.Stops (phrase : Phrase) (rest : List Token) : Prop :=
  ∀ token ∈ rest.head?, phrase.goesOn token = false

namespace Tree

/-- The tokens of a derivation. -/
def tokens : {phrase : Phrase} → Tree phrase → List Token
  | _, .sum first rest => first.tokens ++ rest.tokens
  | _, .noAddends => []
  | _, .plus right rest => .mark '+' :: (right.tokens ++ rest.tokens)
  | _, .minus right rest => .mark '-' :: (right.tokens ++ rest.tokens)
  | _, .product first rest => first.tokens ++ rest.tokens
  | _, .noFactors => []
  | _, .times right rest => .mark '*' :: (right.tokens ++ rest.tokens)
  | _, .negative operand => .mark '-' :: operand.tokens
  | _, .positive operand => .mark '+' :: operand.tokens
  | _, .unsigned operand => operand.tokens
  | _, .number text => [.number text]
  | _, .name text => [.name text]
  | _, .here => [.mark '$']
  | _, .group inner => .mark '(' :: (inner.tokens ++ [.mark ')'])

/-- The formula of a derivation. -/
def formula : {phrase : Phrase} → Tree phrase → phrase.Value
  | _, .sum first rest => rest.formula first.formula
  | _, .noAddends => fun left => left
  | _, .plus right rest => fun left => rest.formula (.add left right.formula)
  | _, .minus right rest => fun left => rest.formula (.subtract left right.formula)
  | _, .product first rest => rest.formula first.formula
  | _, .noFactors => fun left => left
  | _, .times right rest => fun left => rest.formula (.multiply left right.formula)
  | _, .negative operand => Formula.negate operand.formula
  | _, .positive operand => operand.formula
  | _, .unsigned operand => operand.formula
  | _, .number text => Formula.number text
  | _, .name text => Formula.name text
  | _, .here => Formula.here
  | _, .group inner => inner.formula

/-- A product ends where further addends follow. -/
theorem stops_product {rest : List Token} (addends : Tree .addends)
    (stops : Phrase.addends.Stops rest) : Phrase.product.Stops (addends.tokens ++ rest) := by
  cases addends with
  | noAddends =>
    intro token first
    have other := stops token first
    simp only [Phrase.goesOn, Bool.or_eq_false_iff] at other ⊢
    exact other.2
  | plus | minus =>
    intro token first
    cases first
    rfl

/-- Phrases that nothing goes on end everywhere. -/
theorem stops_signed (rest : List Token) : Phrase.signed.Stops rest := fun _ _ => rfl

theorem stops_primary (rest : List Token) : Phrase.primary.Stops rest := fun _ _ => rfl

/-- A sum ends at a closing parenthesis. -/
theorem stops_sum (rest : List Token) : Phrase.sum.Stops (.mark ')' :: rest) := by
  intro token first
  cases first
  rfl

/-- A primary does not start with a sign. -/
theorem head_primary (tree : Tree .primary) :
    ∃ token rest, tree.tokens = token :: rest ∧ token ≠ .mark '-' ∧ token ≠ .mark '+' := by
  cases tree <;> exact ⟨_, _, rfl, by simp, by simp⟩

/-- Tokens have one derivation, and end at one place. -/
theorem eq_of_tokens {phrase : Phrase} (first second : Tree phrase) {rest others : List Token}
    (stops : phrase.Stops rest) (alsoStops : phrase.Stops others)
    (same : first.tokens ++ rest = second.tokens ++ others) : first = second ∧ rest = others := by
  induction first generalizing rest others with
  | sum product addends ihProduct ihAddends =>
    cases second with
    | sum otherProduct otherAddends =>
      simp only [tokens, List.append_assoc] at same
      obtain ⟨rfl, behind⟩ := ihProduct otherProduct (stops_product addends stops)
        (stops_product otherAddends alsoStops) same
      obtain ⟨rfl, ends⟩ := ihAddends otherAddends stops alsoStops behind
      exact ⟨rfl, ends⟩
  | noAddends =>
    cases second with
    | noAddends => exact ⟨rfl, same⟩
    | plus | minus =>
      rw [show rest = _ from same] at stops
      exact absurd (stops _ rfl) (by decide)
  | plus right more ihRight ihMore =>
    cases second with
    | noAddends =>
      rw [show others = _ from same.symm] at alsoStops
      exact absurd (alsoStops _ rfl) (by decide)
    | plus otherRight otherMore =>
      simp only [tokens, List.cons_append, List.append_assoc, List.cons.injEq, true_and] at same
      obtain ⟨rfl, behind⟩ := ihRight otherRight (stops_product more stops)
        (stops_product otherMore alsoStops) same
      obtain ⟨rfl, ends⟩ := ihMore otherMore stops alsoStops behind
      exact ⟨rfl, ends⟩
    | minus => simp [tokens] at same
  | minus right more ihRight ihMore =>
    cases second with
    | noAddends =>
      rw [show others = _ from same.symm] at alsoStops
      exact absurd (alsoStops _ rfl) (by decide)
    | plus => simp [tokens] at same
    | minus otherRight otherMore =>
      simp only [tokens, List.cons_append, List.append_assoc, List.cons.injEq, true_and] at same
      obtain ⟨rfl, behind⟩ := ihRight otherRight (stops_product more stops)
        (stops_product otherMore alsoStops) same
      obtain ⟨rfl, ends⟩ := ihMore otherMore stops alsoStops behind
      exact ⟨rfl, ends⟩
  | product signed factors ihSigned ihFactors =>
    cases second with
    | product otherSigned otherFactors =>
      simp only [tokens, List.append_assoc] at same
      obtain ⟨rfl, behind⟩ := ihSigned otherSigned (stops_signed _) (stops_signed _) same
      obtain ⟨rfl, ends⟩ := ihFactors otherFactors stops alsoStops behind
      exact ⟨rfl, ends⟩
  | noFactors =>
    cases second with
    | noFactors => exact ⟨rfl, same⟩
    | times =>
      rw [show rest = _ from same] at stops
      exact absurd (stops _ rfl) (by decide)
  | times right more ihRight ihMore =>
    cases second with
    | noFactors =>
      rw [show others = _ from same.symm] at alsoStops
      exact absurd (alsoStops _ rfl) (by decide)
    | times otherRight otherMore =>
      simp only [tokens, List.cons_append, List.append_assoc, List.cons.injEq, true_and] at same
      obtain ⟨rfl, behind⟩ := ihRight otherRight (stops_signed _) (stops_signed _) same
      obtain ⟨rfl, ends⟩ := ihMore otherMore stops alsoStops behind
      exact ⟨rfl, ends⟩
  | negative operand ih =>
    cases second with
    | negative other =>
      simp only [tokens, List.cons_append, List.cons.injEq, true_and] at same
      obtain ⟨rfl, ends⟩ := ih other (stops_signed _) (stops_signed _) same
      exact ⟨rfl, ends⟩
    | positive => simp [tokens] at same
    | unsigned other =>
      obtain ⟨token, behind, begins, notMinus, _⟩ := other.head_primary
      simp only [tokens, begins, List.cons_append, List.cons.injEq] at same
      exact absurd same.1.symm notMinus
  | positive operand ih =>
    cases second with
    | negative => simp [tokens] at same
    | positive other =>
      simp only [tokens, List.cons_append, List.cons.injEq, true_and] at same
      obtain ⟨rfl, ends⟩ := ih other (stops_signed _) (stops_signed _) same
      exact ⟨rfl, ends⟩
    | unsigned other =>
      obtain ⟨token, behind, begins, _, notPlus⟩ := other.head_primary
      simp only [tokens, begins, List.cons_append, List.cons.injEq] at same
      exact absurd same.1.symm notPlus
  | unsigned operand ih =>
    obtain ⟨token, behind, begins, notMinus, notPlus⟩ := operand.head_primary
    cases second with
    | negative =>
      simp only [tokens, begins, List.cons_append, List.cons.injEq] at same
      exact absurd same.1 notMinus
    | positive =>
      simp only [tokens, begins, List.cons_append, List.cons.injEq] at same
      exact absurd same.1 notPlus
    | unsigned other =>
      obtain ⟨rfl, ends⟩ := ih other (stops_primary _) (stops_primary _) same
      exact ⟨rfl, ends⟩
  | number | name | here => cases second <;> simp_all [tokens]
  | group inner ih =>
    cases second with
    | group other =>
      simp only [tokens, List.cons_append, List.append_assoc, List.nil_append, List.cons.injEq,
        true_and] at same
      obtain ⟨rfl, ends⟩ := ih other (stops_sum _) (stops_sum _) same
      exact ⟨rfl, (List.cons.inj ends).2⟩
    | number | name | here => simp [tokens] at same

end Tree

end Assembler.Formula
