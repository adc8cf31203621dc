import Assembler.Proofs.Expr.Value
import Assembler.Proofs.Linking.Expansion
import Mathlib.LinearAlgebra.Finsupp.LinearCombination

/-!
# The value of an expression

Given integers for the positions and the unresolved symbols, an expression has a value: labels read
as their positions and EQUs as the values of their bodies, in unbounded arithmetic (`Values`). An
expansion weighs every position and symbol like the expression that it came from, up to the wrapping
of its coefficients (`exists_weights`), so that its value differs from that of the expression by a
multiple of `2 ^ 64`, and not at all if every exact weight is a word (`Weighed.value_modEq`,
`Weighed.value_eq`).
-/

namespace Assembler

variable {depth : Nat} {opened : List SymbolId} {result : Expr}

namespace SymbolTable

/-- What terms add up to in unbounded arithmetic, where positions and unresolved symbols are given
integers, labels read as their positions and EQUs as the values of their bodies. -/
inductive Adds (table : SymbolTable) (assignment : Base → Int) : List Term → Int → Prop where
  | nil : Adds table assignment [] 0
  | place {coefficient : Int64} {location : Location} {rest : List Term} {sum : Int}
      (others : Adds table assignment rest sum) :
      Adds table assignment (⟨coefficient, .place location⟩ :: rest)
        (coefficient.toInt * assignment (.place location) + sum)
  | unresolved {coefficient : Int64} {id : SymbolId} {symbol : Symbol} {rest : List Term}
      {sum : Int}
      (found : table.get? id = some symbol)
      (means : symbol.meaning = .undefined ∨ symbol.meaning = .imported)
      (others : Adds table assignment rest sum) :
      Adds table assignment (⟨coefficient, .symbol id⟩ :: rest)
        (coefficient.toInt * assignment (.symbol id) + sum)
  | label {coefficient : Int64} {id : SymbolId} {symbol : Symbol} {location : Location}
      {rest : List Term} {sum : Int} (found : table.get? id = some symbol)
      (means : symbol.meaning = .label location) (others : Adds table assignment rest sum) :
      Adds table assignment (⟨coefficient, .symbol id⟩ :: rest)
        (coefficient.toInt * assignment (.place location) + sum)
  | equ {coefficient : Int64} {id : SymbolId} {symbol : Symbol} {body : Expr} {inner : Int}
      {rest : List Term} {sum : Int} (found : table.get? id = some symbol)
      (means : symbol.meaning = .equ body) (opened : Adds table assignment body.terms inner)
      (others : Adds table assignment rest sum) :
      Adds table assignment (⟨coefficient, .symbol id⟩ :: rest)
        (coefficient.toInt * (body.constant + inner) + sum)

/-- The value of an expression over the symbols of a table. -/
def Values (table : SymbolTable) (assignment : Base → Int) (expr : Expr) (value : Int) : Prop :=
  table.Adds assignment expr.terms (value - expr.constant)

/-- How often a base counts in an expression, in unbounded arithmetic: by how much the value of the
expression grows when that of the base grows by one. -/
def Counts (table : SymbolTable) (expr : Expr) (base : Base) (count : Int) : Prop :=
  ∀ (assignment : Base → Int) (value grown : Int), table.Values assignment expr value →
    table.Values (fun other => assignment other + if other = base then 1 else 0) expr grown →
      grown = value + count

/-- Whether a base is a position, or a symbol that has no meaning in the object. -/
def Unresolved (table : SymbolTable) : Base → Prop
  | .place _ => True
  | .symbol id => ∃ symbol, table.get? id = some symbol ∧
      (symbol.meaning = .undefined ∨ symbol.meaning = .imported)

/-- Terms have one sum. -/
theorem Adds.unique {table : SymbolTable} {assignment : Base → Int} {terms : List Term}
    {sum other : Int} (adds : table.Adds assignment terms sum)
    (again : table.Adds assignment terms other) : sum = other := by
  induction adds generalizing other with
  | nil =>
    cases again
    rfl
  | place _ ih =>
    cases again with
    | place others => rw [ih others]
  | unresolved found means _ ih =>
    cases again with
    | unresolved _ _ others => rw [ih others]
    | label | equ => simp_all
  | label found means _ ih =>
    cases again with
    | unresolved | equ => simp_all
    | label known isLabel others =>
      obtain rfl := Option.some.inj (found.symm.trans known)
      obtain rfl := Meaning.label.inj (means.symm.trans isLabel)
      rw [ih others]
  | equ found means _ _ ihBody ih =>
    cases again with
    | unresolved | label => simp_all
    | equ known isEqu opened others =>
      obtain rfl := Option.some.inj (found.symm.trans known)
      obtain rfl := Meaning.equ.inj (means.symm.trans isEqu)
      rw [ihBody opened, ih others]

/-- An expression has one value. -/
theorem Values.unique {table : SymbolTable} {assignment : Base → Int} {expr : Expr}
    {value other : Int} (values : table.Values assignment expr value)
    (again : table.Values assignment expr other) : value = other := by
  have same := Adds.unique values again
  omega

/-- An expression of positions and unresolved symbols whose coefficients are exact weights, as far
as words can say. -/
structure Weighed (table : SymbolTable) (expr : Expr) (weights : Base →₀ Int) : Prop where
  ordered : Expr.Ordered expr.terms
  unresolved : ∀ term ∈ expr.terms, table.Unresolved term.base
  coefficients : ∀ base, Expr.coefficientOf expr.terms base = Int64.ofInt (weights base)

/-- A symbol of the table has no improper number. -/
theorem Unresolved.proper {table : SymbolTable} {base : Base} (unresolved : table.Unresolved base) :
    base.Proper := by
  cases base with
  | place location => trivial
  | symbol id =>
    obtain ⟨symbol, found, _⟩ := unresolved
    obtain ⟨index, _, rfl⟩ := get?_bounds found
    have positive : (index : Int) + 1 ≠ 0 := by omega
    exact positive

namespace Weighed

variable {table : SymbolTable} {expr other : Expr} {weights others : Base →₀ Int}

theorem ofInt (table : SymbolTable) (value : Int) : table.Weighed (.ofInt value) 0 where
  ordered := .nil
  unresolved := by
    intro term member
    cases member
  coefficients := fun _ => rfl

/-- A term of a position or an unresolved symbol weighs its coefficient. -/
theorem term {term : Term} (unresolved : table.Unresolved term.base) :
    table.Weighed { terms := [term] } (Finsupp.single term.base term.coefficient.toInt) where
  ordered := .singleton unresolved.proper
  unresolved := by simpa using unresolved
  coefficients := by
    intro base
    rw [Expr.coefficientOf_cons, Expr.coefficientOf, Finsupp.single_apply]
    split
    · simp
    · simp

/-- Weights of a sum add up. -/
theorem add (weighed : table.Weighed expr weights) (also : table.Weighed other others) :
    table.Weighed (expr.add other) (weights + others) where
  ordered := (weighed.ordered.insertTerms (fun _ => true) also.ordered.proper).1
  unresolved := by
    intro term member
    rcases Expr.base_of_mem_insertTerms member with ⟨old, inLeft, same⟩ | ⟨added, inRight, same⟩
    · exact same ▸ weighed.unresolved old inLeft
    · exact same ▸ also.unresolved added inRight
  coefficients := by
    intro base
    rw [Expr.add, Expr.coefficientOf_insertTerms, weighed.coefficients, also.coefficients,
      Finsupp.add_apply, Int64.ofInt_add]

/-- Weights of a multiple are multiplied. -/
theorem scale (weighed : table.Weighed expr weights) (factor : Int64) :
    table.Weighed (expr.scale factor) (factor.toInt • weights) where
  ordered := weighed.ordered.scale factor
  unresolved := by
    intro term member
    obtain ⟨old, inTerms, rfl⟩ := List.mem_map.mp (List.mem_of_mem_filter member)
    exact weighed.unresolved old inTerms
  coefficients := by
    intro base
    rw [Expr.coefficientOf_scale, weighed.coefficients, Finsupp.smul_apply, smul_eq_mul,
      Int64.ofInt_mul, Int64.ofInt_toInt, Int64.mul_comm]

/-- A set of bases that has those of a weighed expression and those that weigh anything. -/
theorem exists_bases (expr : Expr) (weights : Base →₀ Int) (assignment : Base → Int) :
    ∃ bases : Finset Base, (∀ term ∈ expr.terms, term.base ∈ bases) ∧
      Finsupp.linearCombination ℤ assignment weights =
        ∑ base ∈ bases, weights base * assignment base := by
  classical
  refine ⟨weights.support ∪ (expr.terms.map Term.base).toFinset, ?_, ?_⟩
  · intro term member
    apply Finset.mem_union_right
    exact List.mem_toFinset.mpr (List.mem_map_of_mem member)
  · rw [Finsupp.linearCombination_apply, Finsupp.sum]
    apply Finset.sum_subset Finset.subset_union_left
    intro base _ outside
    rw [Finsupp.notMem_support_iff.mp outside, zero_smul]

/-- The value of a weighed expression is its exact value up to a multiple of `2 ^ 64`. -/
theorem value_modEq (weighed : table.Weighed expr weights) (assignment : Base → Int) :
    expr.value assignment ≡ expr.constant + Finsupp.linearCombination ℤ assignment weights
      [ZMOD 2 ^ 64] := by
  obtain ⟨bases, among, exact⟩ := exists_bases expr weights assignment
  rw [exact]
  exact Expr.value_modEq weighed.ordered among weighed.coefficients assignment

/-- The value of a weighed expression is its exact value if every exact weight is a word. -/
theorem value_eq (weighed : table.Weighed expr weights)
    (words : ∀ base, isWord (weights base) = true) (assignment : Base → Int) :
    expr.value assignment =
      expr.constant + Finsupp.linearCombination ℤ assignment weights := by
  obtain ⟨bases, among, exact⟩ := exists_bases expr weights assignment
  rw [exact]
  exact Expr.value_eq_of_words weighed.ordered among weighed.coefficients (fun base _ => words base)
    assignment

end Weighed

/-- An expansion weighs every base like its expression, as far as words can say, and its constant is
exact. -/
def Weighs (table : SymbolTable) (expr result : Expr) : Prop :=
  ∃ weights, table.Weighed result weights ∧ ∀ assignment, table.Values assignment expr
    (result.constant + Finsupp.linearCombination ℤ assignment weights)

/-- What a term adds to an expansion weighs what the term does. -/
def WeighsTerm (table : SymbolTable) (term : Term) (result : Expr) : Prop :=
  ∃ weights, table.Weighed result weights ∧ ∀ assignment rest sum,
    table.Adds assignment rest sum → table.Adds assignment (term :: rest)
      (result.constant + Finsupp.linearCombination ℤ assignment weights + sum)

/-- What a term adds weighs what the term does, if the bodies of EQUs do. -/
theorem weighs_expandTerm {table : SymbolTable}
    (lower : ∀ below, depth = below + 1 → ∀ opened expr result,
      table.expandBelow below opened expr = .ok result → table.Weighs expr result) {term : Term}
    (expands : table.expandTerm depth opened term = .ok result) : table.WeighsTerm term result := by
  obtain ⟨coefficient, base⟩ := term
  have whole := expands
  unfold expandTerm at expands
  cases base with
  | place location =>
    cases expands
    refine ⟨_, .term trivial, fun assignment rest sum others => ?_⟩
    simpa using Adds.place others
  | symbol id =>
    cases found : table.get? id with
    | none => simp [found] at expands
    | some symbol =>
      simp only [found] at expands
      cases means : symbol.meaning with
      | undefined | imported =>
        simp only [means, Except.ok.injEq] at expands
        subst expands
        have unresolved : symbol.meaning = .undefined ∨ symbol.meaning = .imported := by
          simp [means]
        refine ⟨_, .term ⟨symbol, found, unresolved⟩, fun assignment rest sum others => ?_⟩
        simpa using Adds.unresolved found unresolved others
      | label place =>
        simp only [means, Except.ok.injEq] at expands
        subst expands
        refine ⟨_, .term trivial, fun assignment rest sum others => ?_⟩
        simpa using Adds.label found means others
      | equ body =>
        obtain ⟨below, value, rfl, _, inner, rfl⟩ := exists_of_expandTerm_equ found means whole
        obtain ⟨weights, weighed, values⟩ := lower below rfl _ _ _ inner
        refine ⟨_, weighed.scale coefficient, fun assignment rest sum others => ?_⟩
        have adds := @Adds.equ table assignment coefficient _ _ _ _ _ _ found means
          (values assignment) others
        convert adds using 1
        simp only [Expr.scale, map_smul, smul_eq_mul]
        ring

/-- An expansion weighs what its expression does, if every term does. -/
theorem weighs_expandBelow {table : SymbolTable}
    (each : ∀ term added, table.expandTerm depth opened term = .ok added →
      table.WeighsTerm term added) {expr : Expr}
    (expands : table.expandBelow depth opened expr = .ok result) : table.Weighs expr result := by
  have sums : ∀ (terms : List Term) (start result : Expr) (weights : Base →₀ Int),
      table.Weighed start weights →
      terms.foldlM (fun sum term => (table.expandTerm depth opened term).map sum.add) start =
        .ok result →
      ∃ total, table.Weighed result total ∧ ∀ assignment,
        table.Adds assignment terms
          (result.constant - start.constant +
            Finsupp.linearCombination ℤ assignment (total - weights)) := by
    intro terms
    induction terms with
    | nil =>
      intro start result weights weighed folded
      cases folded
      refine ⟨weights, weighed, fun assignment => ?_⟩
      simpa using Adds.nil
    | cons term rest ih =>
      intro start result weights weighed folded
      obtain ⟨added, adds, folded⟩ := exists_of_foldlM_cons folded
      obtain ⟨own, weighedAdded, addsTerm⟩ := each term added adds
      obtain ⟨total, weighedAll, addsRest⟩ := ih _ _ _ (weighed.add weighedAdded) folded
      refine ⟨total, weighedAll, fun assignment => ?_⟩
      convert addsTerm assignment rest _ (addsRest assignment) using 1
      simp only [Expr.add, map_add, map_sub]
      ring
  rw [expandBelow_eq] at expands
  obtain ⟨weights, weighed, adds⟩ := sums _ _ _ _ (.ofInt table expr.constant) expands
  refine ⟨weights, weighed, fun assignment => ?_⟩
  have total := adds assignment
  unfold Values
  convert total using 1
  simp only [Expr.ofInt, map_sub, map_zero]
  ring

/-- An expansion weighs what its expression does. -/
theorem exists_weights {table : SymbolTable} {expr : Expr}
    (expands : table.expandBelow depth opened expr = .ok result) : table.Weighs expr result := by
  induction depth using Nat.strongRecOn generalizing opened expr result with
  | ind depth ih =>
    exact weighs_expandBelow (fun term added => weighs_expandTerm
      fun below same _ _ _ inner => ih below (by omega) inner) expands

/-- No coefficient in an expansion is zero. -/
theorem expandBelow_nonzero {table : SymbolTable} {expr : Expr}
    (expands : table.expandBelow depth opened expr = .ok result) :
    ∀ term ∈ result.terms, term.coefficient ≠ 0 := by
  have sums : ∀ (terms : List Term) (start : Expr), (∀ term ∈ start.terms, term.coefficient ≠ 0) →
      terms.foldlM (fun sum term => (table.expandTerm depth opened term).map sum.add) start =
        .ok result → ∀ term ∈ result.terms, term.coefficient ≠ 0 := by
    intro terms
    induction terms with
    | nil =>
      intro start nonzero folded
      cases folded
      exact nonzero
    | cons term rest ih =>
      intro start nonzero folded
      obtain ⟨added, adds, folded⟩ := exists_of_foldlM_cons folded
      exact ih _ (Expr.add_nonzero nonzero added) folded
  rw [expandBelow_eq] at expands
  refine sums _ _ ?_ expands
  intro term member
  cases member

/-- A base counts as often as it weighs. -/
theorem counts_of_weights {table : SymbolTable} {expr : Expr} {constant : Int}
    {weights : Base →₀ Int}
    (values : ∀ assignment, table.Values assignment expr
      (constant + Finsupp.linearCombination ℤ assignment weights)) (base : Base) (count : Int) :
    table.Counts expr base count ↔ count = weights base := by
  have grows : ∀ assignment : Base → Int,
      Finsupp.linearCombination ℤ (fun other => assignment other + if other = base then 1 else 0)
        weights = Finsupp.linearCombination ℤ assignment weights + weights base := by
    intro assignment
    simp only [Finsupp.linearCombination_apply, Finsupp.sum, smul_eq_mul, mul_add,
      Finset.sum_add_distrib, mul_ite, mul_one, mul_zero, Finset.sum_ite_eq']
    split
    · rfl
    · next outside => rw [Finsupp.notMem_support_iff.mp outside]
  constructor
  · intro counts
    have grown := counts (fun _ => 0) _ _ (values _) (values _)
    rw [grows] at grown
    omega
  · rintro rfl assignment value grown before after
    rw [before.unique (values _), after.unique (values _), grows]
    omega

end SymbolTable

end Assembler
