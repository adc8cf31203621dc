import Assembler.Proofs.Expr.Order
import Assembler.Proofs.Relaxation.Distance
import Mathlib.Algebra.BigOperators.ModEq
import Mathlib.Algebra.BigOperators.Ring.Finset

/-!
# The value of an expression

Given an integer for every base, an expression has a value in unbounded arithmetic. The terms of an
expression have different bases, so its value is a sum over the coefficients of its bases
(`value_eq_sum`). Coefficients are words: where they stand for exact weights, the value is the exact
one up to a multiple of `2 ^ 64` (`value_modEq`), and exactly that if every weight is a word
(`value_eq_of_words`).
-/

namespace Assembler

namespace Expr

/-- The value of an expression whose bases are given integers. -/
def value (expr : Expr) (assignment : Base → Int) : Int :=
  expr.constant + (expr.terms.map fun term => term.coefficient.toInt * assignment term.base).sum

/-- An expression in normal form: terms in the order of their bases, no base twice, no coefficient
zero. -/
structure Normal (expr : Expr) : Prop where
  ordered : Ordered expr.terms
  nonzero : ∀ term ∈ expr.terms, term.coefficient ≠ 0

/-- Inserting a term leaves none with coefficient zero. -/
theorem insertTerm_nonzero {terms : List Term}
    (nonzero : ∀ old ∈ terms, old.coefficient ≠ 0) (term : Term) :
    ∀ other ∈ insertTerm term terms, other.coefficient ≠ 0 := by
  induction terms with
  | nil =>
    unfold insertTerm
    split
    · simp
    · next counts => simpa using counts
  | cons first rest ih =>
    obtain ⟨own, others⟩ := List.forall_mem_cons.mp nonzero
    unfold insertTerm
    split
    · split
      · exact others
      · next counts => exact List.forall_mem_cons.mpr ⟨counts, others⟩
    · split
      · split
        · exact nonzero
        · next counts => exact List.forall_mem_cons.mpr ⟨counts, nonzero⟩
      · exact List.forall_mem_cons.mpr ⟨own, ih others⟩

/-- A sum has no coefficient zero if the expression that is added to has none. -/
theorem add_nonzero {left : Expr} (nonzero : ∀ old ∈ left.terms, old.coefficient ≠ 0)
    (right : Expr) : ∀ term ∈ (left.add right).terms, term.coefficient ≠ 0 := by
  unfold add
  dsimp only
  induction right.terms generalizing left with
  | nil => exact nonzero
  | cons term rest ih => exact @ih (left.addTerm term) (insertTerm_nonzero nonzero term)

/-- The bases after adding terms are the old ones and theirs. -/
theorem base_of_mem_insertTerms {left right : List Term} {term : Term}
    (member : term ∈ right.foldl (fun terms term => insertTerm term terms) left) :
    (∃ old ∈ left, term.base = old.base) ∨ ∃ added ∈ right, term.base = added.base := by
  induction right generalizing left with
  | nil => exact .inl ⟨term, member, rfl⟩
  | cons first rest ih =>
    rcases ih member with ⟨old, inserted, same⟩ | ⟨added, inRest, same⟩
    · rcases base_of_mem_insertTerm inserted with own | ⟨older, inLeft, alike⟩
      · exact .inr ⟨first, List.mem_cons_self, same.trans own⟩
      · exact .inl ⟨older, inLeft, same.trans alike⟩
    · exact .inr ⟨added, List.mem_cons_of_mem _ inRest, same⟩

/-- A base that no term has counts for nothing. -/
theorem coefficientOf_eq_zero {terms : List Term} {base : Base}
    (absent : ∀ term ∈ terms, term.base ≠ base) : coefficientOf terms base = 0 := by
  have none : terms.filter (fun term => term.base = base) = [] := by
    rw [List.filter_eq_nil_iff]
    intro term member
    simpa using absent term member
  rw [coefficientOf, none]
  rfl

/-- The terms behind the first have other bases. -/
theorem Ordered.base_ne {first : Term} {rest : List Term} (ordered : Ordered (first :: rest)) :
    ∀ term ∈ rest, term.base ≠ first.base := by
  intro term member same
  have before := (List.pairwise_cons.mp ordered.sorted).1 term member
  rw [same, Base.isBefore_irrefl] at before
  cases before

/-- Terms in order add up to the coefficients of their bases, over any set of bases that has
theirs. -/
theorem sum_terms_eq {terms : List Term} (ordered : Ordered terms) (assignment : Base → Int)
    (bases : Finset Base) (among : ∀ term ∈ terms, term.base ∈ bases) :
    (terms.map fun term => term.coefficient.toInt * assignment term.base).sum =
      ∑ base ∈ bases, (coefficientOf terms base).toInt * assignment base := by
  induction terms with
  | nil =>
    symm
    apply Finset.sum_eq_zero
    intro base _
    exact Int.zero_mul _
  | cons first rest ih =>
    obtain ⟨here, others⟩ := List.forall_mem_cons.mp among
    have alone := coefficientOf_eq_zero ordered.base_ne
    rw [List.map_cons, List.sum_cons, ih ordered.tail others,
      ← Finset.add_sum_erase bases _ here, ← Finset.add_sum_erase bases _ here, coefficientOf_cons,
      if_pos rfl, alone, Int64.add_zero, Int64.toInt_zero, Int.zero_mul, Int.zero_add]
    congr 1
    apply Finset.sum_congr rfl
    intro base member
    have different : first.base ≠ base := (Finset.ne_of_mem_erase member).symm
    rw [coefficientOf_cons, if_neg different, Int64.zero_add]

section

variable {expr : Expr} {bases : Finset Base} (ordered : Ordered expr.terms)
  (among : ∀ term ∈ expr.terms, term.base ∈ bases)
include ordered among

/-- The value of an expression as a sum over any set of bases that has its own. -/
theorem value_eq_sum (assignment : Base → Int) :
    expr.value assignment =
      expr.constant + ∑ base ∈ bases, (coefficientOf expr.terms base).toInt * assignment base := by
  rw [value, sum_terms_eq ordered assignment bases among]

variable {weights : Base → Int}
  (coefficients : ∀ base, coefficientOf expr.terms base = Int64.ofInt (weights base))
include coefficients

/-- An expression whose coefficients stand for exact weights has the exact value up to a multiple of
`2 ^ 64`. -/
theorem value_modEq (assignment : Base → Int) :
    expr.value assignment ≡ expr.constant + ∑ base ∈ bases, weights base * assignment base
      [ZMOD 2 ^ 64] := by
  rw [value_eq_sum ordered among]
  apply Int.ModEq.add_left
  apply Int.ModEq.sum
  intro base _
  apply Int.ModEq.mul_right
  rw [coefficients, Int64.toInt_ofInt]
  exact Int.bmod_emod

/-- An expression whose coefficients stand for exact weights has the exact value if every weight is
a word. -/
theorem value_eq_of_words (words : ∀ base ∈ bases, isWord (weights base) = true)
    (assignment : Base → Int) :
    expr.value assignment = expr.constant + ∑ base ∈ bases, weights base * assignment base := by
  rw [value_eq_sum ordered among]
  congr 1
  apply Finset.sum_congr rfl
  intro base member
  rw [coefficients, isWord_iff_toInt_ofInt.mp (words base member)]

end

end Expr

end Assembler
