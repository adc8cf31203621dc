import Assembler.Proofs.Expr.Value
import Mathlib.Data.Prod.Lex
import Mathlib.Tactic.Ring

/-!
# The algebra of expressions

Every expression that the operations build is in normal form (`Formed.normal`), and expressions in
normal form are equal as soon as their constants and the coefficients of all bases are
(`Normal.ext`). The laws of a linear algebra follow from those of words, also where coefficients
wrap to zero and their bases drop out (`formed_linear`).
-/

namespace Assembler

/-- What bases are ordered by: the number of a symbol, then section, chunk and offset. A position
counts as the number zero, and a symbol as the first position of all. -/
def Base.key : Base → Int ×ₗ Int ×ₗ Nat ×ₗ Nat
  | .symbol id => toLex (id, toLex (0, toLex (0, 0)))
  | .place location =>
    toLex (0, toLex (location.sectionId, toLex (location.index, location.offset.toNat)))

/-- The key of a base respects the order of bases. -/
theorem Base.key_lt_of_isBefore {left right : Base} (before : left.isBefore right = true) :
    left.key < right.key := by
  by_cases ranks : left.rank = right.rank
  · cases left with
    | symbol id => simp [isBefore, ranks] at before
    | place location =>
      cases right with
      | symbol id => simp [isBefore, ranks] at before
      | place other =>
        simp only [isBefore, ranks, ne_eq, not_true_eq_false, if_false, Location.isBefore] at before
        simp only [key, Prod.Lex.toLex_lt_toLex]
        grind [UInt64.lt_iff_toNat_lt]
  · have less : left.rank < right.rank := by simpa [isBefore, ranks] using before
    cases left <;> cases right <;> exact Prod.Lex.toLex_lt_toLex.mpr (.inl less)

namespace Expr

/-- The expressions that the operations build. -/
inductive Formed : Expr → Prop where
  | ofInt (value : Int) : Formed (.ofInt value)
  | ofSymbol (id : SymbolId) : Formed (.ofSymbol id)
  | ofLocation (location : Location) : Formed (.ofLocation location)
  | add {left right : Expr} : Formed left → Formed right → Formed (left.add right)
  | sub {left right : Expr} : Formed left → Formed right → Formed (left.sub right)
  | addInt {expr : Expr} (value : Int) : Formed expr → Formed (expr.addInt value)
  | scale {expr : Expr} (factor : Int64) : Formed expr → Formed (expr.scale factor)

namespace Normal

variable {expr left right : Expr}

/-- A number is in normal form. -/
theorem ofInt (value : Int) : (Expr.ofInt value).Normal where
  ordered := .nil
  nonzero := by
    intro term member
    cases member

/-- A location is in normal form. -/
theorem ofLocation (location : Location) : (Expr.ofLocation location).Normal where
  ordered := .singleton trivial
  nonzero := by
    intro term member
    rw [List.mem_singleton.mp member]
    exact (by decide : (1 : Int64) ≠ 0)

/-- A symbol is in normal form. -/
theorem ofSymbol (id : SymbolId) : (Expr.ofSymbol id).Normal := by
  unfold Expr.ofSymbol
  split
  · exact .ofLocation _
  · next proper =>
    refine ⟨.singleton proper, ?_⟩
    intro term member
    rw [List.mem_singleton.mp member]
    exact (by decide : (1 : Int64) ≠ 0)

/-- The sum of normal forms is one. -/
theorem add (normal : left.Normal) (other : right.Normal) : (left.add right).Normal where
  ordered := (normal.ordered.insertTerms (fun _ => true) other.ordered.proper).1
  nonzero := add_nonzero normal.nonzero right

theorem addInt (normal : expr.Normal) (value : Int) : (expr.addInt value).Normal :=
  ⟨normal.ordered, normal.nonzero⟩

/-- A multiple of a normal form is one. -/
theorem scale (normal : expr.Normal) (factor : Int64) : (expr.scale factor).Normal where
  ordered := normal.ordered.scale factor
  nonzero := by
    intro term member
    simpa using List.of_mem_filter member

end Normal

/-- The operations build expressions in normal form. -/
theorem Formed.normal {expr : Expr} (formed : expr.Formed) : expr.Normal := by
  induction formed with
  | ofInt value => exact .ofInt value
  | ofSymbol id => exact .ofSymbol id
  | ofLocation location => exact .ofLocation location
  | add _ _ first second => exact first.add second
  | sub _ _ first second => exact first.add (second.scale (-1))
  | addInt value _ inner => exact inner.addInt value
  | scale factor _ inner => exact inner.scale factor

/-- A term of an ordered list has the coefficient of its base. -/
theorem coefficientOf_of_mem {terms : List Term} (ordered : Ordered terms) {term : Term}
    (member : term ∈ terms) : coefficientOf terms term.base = term.coefficient := by
  induction terms with
  | nil => cases member
  | cons first rest ih =>
    rw [coefficientOf_cons]
    rcases List.mem_cons.mp member with rfl | later
    · rw [if_pos rfl, coefficientOf_eq_zero ordered.base_ne, Int64.add_zero]
    · rw [if_neg (ordered.base_ne term later).symm, ih ordered.tail later, Int64.zero_add]

/-- The terms of an expression in normal form are the bases that count, with their coefficients. -/
theorem Normal.mem_terms_iff {expr : Expr} (normal : expr.Normal) {term : Term} :
    term ∈ expr.terms ↔
      term.coefficient ≠ 0 ∧ coefficientOf expr.terms term.base = term.coefficient := by
  constructor
  · intro member
    exact ⟨normal.nonzero term member, coefficientOf_of_mem normal.ordered member⟩
  · rintro ⟨counts, same⟩
    by_contra absent
    refine counts (same ▸ coefficientOf_eq_zero fun other member alike => absent ?_)
    -- A term of the same base would have the same coefficient.
    have own := coefficientOf_of_mem normal.ordered member
    rw [alike, same] at own
    obtain ⟨coefficient, base⟩ := term
    obtain ⟨otherCoefficient, otherBase⟩ := other
    cases alike
    cases own
    exact member

/-- Expressions in normal form with the same constant and coefficients are equal. -/
theorem Normal.ext {left right : Expr} (normal : left.Normal) (other : right.Normal)
    (constant : left.constant = right.constant)
    (coefficients : ∀ base, coefficientOf left.terms base = coefficientOf right.terms base) :
    left = right := by
  have distinct : ∀ {expr : Expr}, expr.Normal → expr.terms.Nodup := fun normal =>
    normal.ordered.sorted.imp fun {first second} before same => by
      rw [same, Base.isBefore_irrefl] at before
      cases before
  have alike : left.terms.Perm right.terms := by
    rw [List.perm_ext_iff_of_nodup (distinct normal) (distinct other)]
    intro term
    rw [normal.mem_terms_iff, other.mem_terms_iff, coefficients]
  have terms : left.terms = right.terms := by
    refine alike.eq_of_pairwise ?_ normal.ordered.sorted other.ordered.sorted
    intro first second _ _ before after
    have circle := Base.isBefore_trans before after
    rw [Base.isBefore_irrefl] at circle
    cases circle
  cases left
  cases right
  cases constant
  cases terms
  rfl

/-- Coefficients of a sum add up. -/
theorem coefficientOf_add (left right : Expr) (base : Base) :
    coefficientOf (left.add right).terms base =
      coefficientOf left.terms base + coefficientOf right.terms base :=
  coefficientOf_insertTerms left.terms right.terms base

section

variable {expr left middle right : Expr}

/-- Addition of normal forms commutes. -/
theorem Normal.add_comm (normal : left.Normal) (other : right.Normal) :
    left.add right = right.add left := by
  refine (normal.add other).ext (other.add normal) (Int.add_comm ..) fun base => ?_
  rw [coefficientOf_add, coefficientOf_add, Int64.add_comm]

/-- Addition of normal forms associates. -/
theorem Normal.add_assoc (first : left.Normal) (second : middle.Normal) (third : right.Normal) :
    (left.add middle).add right = left.add (middle.add right) := by
  refine ((first.add second).add third).ext (first.add (second.add third)) (Int.add_assoc ..)
    fun base => ?_
  simp only [coefficientOf_add, Int64.add_assoc]

/-- An expression minus itself is nothing, also where a coefficient has no negative. -/
theorem Normal.sub_self (normal : expr.Normal) : expr.sub expr = .ofInt 0 := by
  refine (normal.add (normal.scale (-1))).ext (.ofInt 0) ?_ fun base => ?_
  · have minus : (-1 : Int64).toInt = -1 := by decide
    simp only [Expr.add, Expr.scale, Expr.ofInt, minus]
    omega
  · rw [coefficientOf_add, coefficientOf_scale]
    change _ = (0 : Int64)
    grind

/-- Scaling distributes over the addition of normal forms. -/
theorem Normal.scale_add (normal : left.Normal) (other : right.Normal) (factor : Int64) :
    (left.add right).scale factor = (left.scale factor).add (right.scale factor) := by
  refine ((normal.add other).scale factor).ext ((normal.scale factor).add (other.scale factor))
    (Int.add_mul ..) fun base => ?_
  simp only [coefficientOf_add, coefficientOf_scale, Int64.add_mul]

/-- The value of a sum is the sum of the values, up to the wrapping of coefficients. -/
theorem Normal.value_add (normal : left.Normal) (other : right.Normal) (assignment : Base → Int) :
    (left.add right).value assignment ≡ left.value assignment + right.value assignment
        [ZMOD 2 ^ 64] ∧
      ((∀ base, isWord ((coefficientOf left.terms base).toInt +
          (coefficientOf right.terms base).toInt) = true) →
        (left.add right).value assignment = left.value assignment + right.value assignment) := by
  classical
  let bases := (left.terms.map Term.base ++ right.terms.map Term.base).toFinset
  have inLeft : ∀ term ∈ left.terms, term.base ∈ bases := fun term member =>
    List.mem_toFinset.mpr (List.mem_append_left _ (List.mem_map_of_mem member))
  have inRight : ∀ term ∈ right.terms, term.base ∈ bases := fun term member =>
    List.mem_toFinset.mpr (List.mem_append_right _ (List.mem_map_of_mem member))
  have among : ∀ term ∈ (left.add right).terms, term.base ∈ bases := by
    intro term member
    rcases base_of_mem_insertTerms member with ⟨old, inTerms, same⟩ | ⟨added, inTerms, same⟩
    · exact same ▸ inLeft old inTerms
    · exact same ▸ inRight added inTerms
  have coefficients : ∀ base, coefficientOf (left.add right).terms base =
      Int64.ofInt ((coefficientOf left.terms base).toInt +
        (coefficientOf right.terms base).toInt) := by
    intro base
    rw [coefficientOf_add, Int64.ofInt_add, Int64.ofInt_toInt, Int64.ofInt_toInt]
  have sum : left.value assignment + right.value assignment = (left.add right).constant +
      ∑ base ∈ bases, ((coefficientOf left.terms base).toInt +
        (coefficientOf right.terms base).toInt) * assignment base := by
    rw [value_eq_sum normal.ordered inLeft, value_eq_sum other.ordered inRight]
    simp only [Expr.add, Int.add_mul, Finset.sum_add_distrib]
    ring
  have ordered := (normal.add other).ordered
  rw [sum]
  exact ⟨value_modEq ordered among coefficients assignment,
    fun words => value_eq_of_words ordered among coefficients (fun base _ => words base) assignment⟩

/-- The value of a multiple is the multiple of the value, up to the wrapping of coefficients. -/
theorem Normal.value_scale (normal : expr.Normal) (factor : Int64) (assignment : Base → Int) :
    (expr.scale factor).value assignment ≡ factor.toInt * expr.value assignment [ZMOD 2 ^ 64] ∧
      ((∀ base, isWord ((coefficientOf expr.terms base).toInt * factor.toInt) = true) →
        (expr.scale factor).value assignment = factor.toInt * expr.value assignment) := by
  classical
  let bases := (expr.terms.map Term.base).toFinset
  have inside : ∀ term ∈ expr.terms, term.base ∈ bases := fun term member =>
    List.mem_toFinset.mpr (List.mem_map_of_mem member)
  have among : ∀ term ∈ (expr.scale factor).terms, term.base ∈ bases := by
    intro term member
    obtain ⟨old, inTerms, rfl⟩ := List.mem_map.mp (List.mem_of_mem_filter member)
    exact inside old inTerms
  have coefficients : ∀ base, coefficientOf (expr.scale factor).terms base =
      Int64.ofInt ((coefficientOf expr.terms base).toInt * factor.toInt) := by
    intro base
    rw [coefficientOf_scale, Int64.ofInt_mul, Int64.ofInt_toInt, Int64.ofInt_toInt]
  have product : factor.toInt * expr.value assignment = (expr.scale factor).constant +
      ∑ base ∈ bases, (coefficientOf expr.terms base).toInt * factor.toInt * assignment base := by
    rw [value_eq_sum normal.ordered inside, mul_add, Finset.mul_sum]
    congr 1
    · exact Int.mul_comm ..
    · exact Finset.sum_congr rfl fun base _ => by ring
  have ordered := (normal.scale factor).ordered
  rw [product]
  exact ⟨value_modEq ordered among coefficients assignment,
    fun words => value_eq_of_words ordered among coefficients (fun base _ => words base) assignment⟩

end

/-- The expressions that the operations build are a linear algebra over words, each in one form. No
base stands twice, no coefficient is zero, and the terms are ordered by symbol and position.
Expressions with the same constant and the same coefficients are equal; sums commute and associate,
an expression cancels itself, and multiples distribute over sums. Constants are exact, and so are
values as long as no coefficient wraps; otherwise values are right up to a multiple of `2 ^ 64`. -/
theorem formed_linear {left middle right : Expr} (first : left.Formed) (second : middle.Formed)
    (third : right.Formed) (factor : Int64) (assignment : Base → Int) :
    ((left.terms.map Term.base).Nodup ∧ (∀ term ∈ left.terms, term.coefficient ≠ 0) ∧
      left.terms.Pairwise fun term later => term.base.key < later.base.key) ∧
    (left.constant = middle.constant →
      (∀ base, coefficientOf left.terms base = coefficientOf middle.terms base) →
        left = middle) ∧
    left.add middle = middle.add left ∧
    (left.add middle).add right = left.add (middle.add right) ∧
    left.sub left = .ofInt 0 ∧
    (left.add middle).scale factor = (left.scale factor).add (middle.scale factor) ∧
    ((left.add middle).constant = left.constant + middle.constant ∧
      (left.add middle).value assignment ≡ left.value assignment + middle.value assignment
        [ZMOD 2 ^ 64] ∧
      ((∀ base, isWord ((coefficientOf left.terms base).toInt +
          (coefficientOf middle.terms base).toInt) = true) →
        (left.add middle).value assignment =
          left.value assignment + middle.value assignment)) ∧
    (left.scale factor).constant = factor.toInt * left.constant ∧
    (left.scale factor).value assignment ≡ factor.toInt * left.value assignment [ZMOD 2 ^ 64] ∧
    ((∀ base, isWord ((coefficientOf left.terms base).toInt * factor.toInt) = true) →
      (left.scale factor).value assignment = factor.toInt * left.value assignment) := by
  have normal := first.normal
  have keys : left.terms.Pairwise fun term later => term.base.key < later.base.key :=
    normal.ordered.sorted.imp Base.key_lt_of_isBefore
  refine ⟨⟨?_, normal.nonzero, keys⟩, normal.ext second.normal, normal.add_comm second.normal,
    normal.add_assoc second.normal third.normal, normal.sub_self,
    normal.scale_add second.normal factor, ⟨rfl, normal.value_add second.normal assignment⟩,
    Int.mul_comm .., normal.value_scale factor assignment⟩
  rw [List.Nodup, List.pairwise_map]
  exact keys.imp fun before same => (same ▸ before).false

/-- A symbol as often as the least word says, and the first position of all under its two names. -/
def extreme : Expr := ((ofSymbol 2).scale (-9223372036854775808)).add (ofSymbol 0)

/-- The coefficient of the symbol wraps to zero in the sum, and the symbol drops out. The value of
the sum is then right up to a multiple of `2 ^ 64` only, while the position, whose coefficient does
not wrap, is counted exactly. -/
theorem extreme_linear :
    extreme.terms = [⟨1, .place ⟨0, 0, 0⟩⟩, ⟨-9223372036854775808, .symbol 2⟩] ∧
      extreme.add extreme = (ofLocation ⟨0, 0, 0⟩).scale 2 ∧
      extreme.sub extreme = .ofInt 0 ∧
      (∀ assignment, (extreme.add extreme).value assignment ≡
        extreme.value assignment + extreme.value assignment [ZMOD 2 ^ 64]) ∧
      (extreme.add extreme).value (fun _ => 1) ≠
        extreme.value (fun _ => 1) + extreme.value fun _ => 1 := by
  have formed : extreme.Formed := .add (.scale _ (.ofSymbol 2)) (.ofSymbol 0)
  obtain ⟨_, _, _, _, cancels, _⟩ := formed_linear formed formed formed 1 fun _ => 0
  refine ⟨by decide, by decide, cancels, fun assignment => ?_, by decide⟩
  obtain ⟨_, _, _, _, _, _, ⟨_, sums, _⟩, _⟩ := formed_linear formed formed formed 1 assignment
  exact sums

end Expr

end Assembler
