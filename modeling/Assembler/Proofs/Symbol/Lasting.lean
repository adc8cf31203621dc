import Assembler.Proofs.Expr.Algebra
import Assembler.Proofs.Symbol.Definition

/-!
# Expansions that last

A symbol that gets a label or is declared as an import takes its new base wherever it stood in an
expansion, with the coefficient that it had (`Gains.exists_expand`). Where it did not stand at all,
the expansion is the one it was. So an expansion into positions lasts (`Gains.keeps`): names, labels
and imports that come later cannot change it. An EQU can, if the expression reaches its name
(`keeps_define_equ`): it adds constants and other bases, and may even close a circle.
-/

namespace Assembler

/-- A fold keeps step with another one, if their visits do and sums respect the relation. -/
theorem exists_foldlM_related {related : Expr → Expr → Prop}
    {visit other : Term → Except Halt Expr} {terms : List Term} {start otherStart result : Expr}
    (add : ∀ {left right otherLeft otherRight : Expr}, related left otherLeft →
      related right otherRight → related (left.add right) (otherLeft.add otherRight))
    (each : ∀ term added, visit term = .ok added →
      ∃ late, other term = .ok late ∧ related added late)
    (begins : related start otherStart)
    (folded : terms.foldlM (fun sum term => (visit term).map sum.add) start = .ok result) :
    ∃ late, terms.foldlM (fun sum term => (other term).map sum.add) otherStart = .ok late ∧
      related result late := by
  induction terms generalizing start otherStart with
  | nil =>
    cases folded
    exact ⟨otherStart, rfl, begins⟩
  | cons term rest ih =>
    obtain ⟨added, adds, folded⟩ := exists_of_foldlM_cons folded
    obtain ⟨lateAdded, lateAdds, alike⟩ := each term added adds
    obtain ⟨late, lateFolded, ends⟩ := ih (add begins alike) folded
    refine ⟨late, ?_, ends⟩
    rw [List.foldlM_cons, lateAdds]
    exact lateFolded

namespace Expr

/-- The coefficients of a single term. -/
theorem coefficientOf_singleton (term : Term) (base : Base) :
    coefficientOf [term] base = if term.base = base then term.coefficient else 0 := by
  rw [coefficientOf_cons]
  exact Int64.add_zero _

/-- One base has taken the place of another in an expression. -/
structure Moved (source target : Base) (early late : Expr) : Prop where
  constant : late.constant = early.constant
  coefficients : ∀ base, coefficientOf late.terms base =
    (if base = source then 0 else coefficientOf early.terms base) +
      if base = target then coefficientOf early.terms source else 0

namespace Moved

variable {source target : Base} {early late : Expr}

theorem ofInt (value : Int) : Moved source target (.ofInt value) (.ofInt value) where
  constant := rfl
  coefficients := by
    intro base
    change (0 : Int64) = (if _ then 0 else 0) + if _ then 0 else 0
    simp

/-- Sums of moved expressions are moved. -/
theorem add (moved : Moved source target early late) {other otherLate : Expr}
    (others : Moved source target other otherLate) :
    Moved source target (early.add other) (late.add otherLate) where
  constant := by simp only [Expr.add, moved.constant, others.constant]
  coefficients := by
    intro base
    rw [coefficientOf_add, coefficientOf_add, coefficientOf_add, moved.coefficients,
      others.coefficients]
    split <;> split <;> grind

/-- Multiples of moved expressions are moved. -/
theorem scale (moved : Moved source target early late) (factor : Int64) :
    Moved source target (early.scale factor) (late.scale factor) where
  constant := by simp only [Expr.scale, moved.constant]
  coefficients := by
    intro base
    rw [coefficientOf_scale, coefficientOf_scale, coefficientOf_scale, moved.coefficients]
    split <;> split <;> grind

/-- Another base stays. -/
theorem term {term : Term} (other : term.base ≠ source) :
    Moved source target { terms := [term] } { terms := [term] } where
  constant := rfl
  coefficients := by
    intro base
    rw [coefficientOf_singleton, coefficientOf_singleton, if_neg other]
    by_cases same : base = source
    · simp [same, other]
    · simp [same]

/-- The base itself is replaced. -/
theorem self (coefficient : Int64) :
    Moved source target { terms := [⟨coefficient, source⟩] }
      { terms := [⟨coefficient, target⟩] } where
  constant := rfl
  coefficients := by
    intro base
    rw [coefficientOf_singleton, coefficientOf_singleton, coefficientOf_singleton, if_pos rfl]
    by_cases same : base = source
    · simp [same, eq_comm]
    · have other : source ≠ base := fun alike => same alike.symm
      simp [same, other, eq_comm]

/-- Nothing has moved if the base was not there. -/
theorem eq_of_absent (moved : Moved source target early late) (normal : early.Normal)
    (lateNormal : late.Normal) (absent : ∀ term ∈ early.terms, term.base ≠ source) :
    late = early := by
  have none := coefficientOf_eq_zero absent
  refine lateNormal.ext normal moved.constant fun base => ?_
  rw [moved.coefficients, none]
  by_cases same : base = source
  · rw [if_pos same, same, none]
    simp
  · rw [if_neg same]
    simp

end Moved

end Expr

/-- What the terms of a symbol have as their base. The terms of an EQU are those of its body. -/
def Meaning.base? (id : SymbolId) : Meaning → Option Base
  | .undefined | .imported => some (.symbol id)
  | .label place => some (.place place)
  | .equ _ => none

namespace SymbolTable

/-- A later table has the symbols of an earlier one, apart from one without a meaning, whose terms
have a base of their own now. -/
structure Gains (table after : SymbolTable) (id : SymbolId) (target : Base) : Prop where
  grows : table.symbols.length ≤ after.symbols.length
  others : ∀ (other : SymbolId) (symbol : Symbol), other ≠ id → table.get? other = some symbol →
    after.get? other = some symbol
  gained : ∀ symbol, table.get? id = some symbol →
    ∃ next, after.get? id = some next ∧ (next = symbol ∧ target = .symbol id ∨
      symbol.meaning = .undefined ∧ next.meaning.base? id = some target)

/-- A later table keeps an expansion, if it has positions only. -/
def Keeps (table after : SymbolTable) (expr : Expr) : Prop :=
  ∀ result, table.expand expr = .ok result → (∀ term ∈ result.terms, term.isPlace = true) →
    after.expand expr = .ok result

section

variable {table after : SymbolTable} {id : SymbolId} {target : Base}

/-- Expansions are in normal form. -/
theorem normal_of_expandBelow {depth : Nat} {opened : List SymbolId} {expr result : Expr}
    (expands : table.expandBelow depth opened expr = .ok result) : result.Normal := by
  obtain ⟨_, weighed, _⟩ := exists_weights expands
  exact ⟨weighed.ordered, expandBelow_nonzero expands⟩

/-- A symbol that is no EQU expands to its base. -/
theorem expandTerm_of_base? {depth : Nat} {opened : List SymbolId} {coefficient : Int64}
    {symbol : Symbol} {base : Base} (found : table.get? id = some symbol)
    (means : symbol.meaning.base? id = some base) :
    table.expandTerm depth opened ⟨coefficient, .symbol id⟩ =
      .ok { terms := [⟨coefficient, base⟩] } := by
  cases meaning : symbol.meaning with
  | undefined | imported | label =>
    rw [meaning] at means
    cases means
    simp only [expandTerm, found, meaning]
  | equ body =>
    rw [meaning] at means
    cases means

/-- Where one expansion succeeds the other one does, with a base moved. -/
def KeepsStep (source target : Base) (first second : Except Halt Expr) : Prop :=
  ∀ early, first = .ok early → ∃ late, second = .ok late ∧ Expr.Moved source target early late

/-- What a symbol of both tables adds, if expressions inside EQUs keep step. -/
theorem keepsStep_same {depth : Nat}
    (lower : ∀ below, depth = below + 1 → ∀ opened expr, KeepsStep (.symbol id) target
      (table.expandBelow below opened expr) (after.expandBelow below opened expr))
    {opened : List SymbolId} {coefficient : Int64} {other : SymbolId} {symbol : Symbol}
    (found : table.get? other = some symbol) (same : after.get? other = some symbol)
    (stays : ∀ base, symbol.meaning.base? other = some base →
      Expr.Moved (.symbol id) target { terms := [⟨coefficient, base⟩] }
        { terms := [⟨coefficient, base⟩] }) :
    KeepsStep (.symbol id) target (table.expandTerm depth opened ⟨coefficient, .symbol other⟩)
      (after.expandTerm depth opened ⟨coefficient, .symbol other⟩) := by
  intro early expands
  cases means : symbol.meaning.base? other with
  | some base =>
    rw [expandTerm_of_base? found means, Except.ok.injEq] at expands
    subst expands
    exact ⟨_, expandTerm_of_base? same means, stays base means⟩
  | none =>
    cases meaning : symbol.meaning with
    | undefined | imported | label =>
      rw [meaning] at means
      cases means
    | equ body =>
      obtain ⟨below, value, rfl, closed, inner, rfl⟩ :=
        exists_of_expandTerm_equ found meaning expands
      obtain ⟨late, follows, moved⟩ := lower below rfl _ _ _ inner
      refine ⟨late.scale coefficient, ?_, moved.scale coefficient⟩
      rw [expandTerm_equ same meaning closed, follows, Except.map]

/-- What a term adds over the later table, if expressions inside EQUs keep step. -/
theorem Gains.keepsStep_expandTerm (gains : table.Gains after id target) {depth : Nat}
    (lower : ∀ below, depth = below + 1 → ∀ opened expr, KeepsStep (.symbol id) target
      (table.expandBelow below opened expr) (after.expandBelow below opened expr))
    (opened : List SymbolId) (term : Term) :
    KeepsStep (.symbol id) target (table.expandTerm depth opened term)
      (after.expandTerm depth opened term) := by
  intro early expands
  obtain ⟨coefficient, base⟩ := term
  cases base with
  | place location =>
    cases expands
    exact ⟨_, rfl, .term (by simp)⟩
  | symbol other =>
    cases found : table.get? other with
    | none => simp [expandTerm, found] at expands
    | some symbol =>
      by_cases here : other = id
      · subst here
        obtain ⟨next, known, ⟨rfl, rfl⟩ | ⟨undefined, means⟩⟩ := gains.gained symbol found
        · refine keepsStep_same lower found known (fun base means => ?_) early expands
          by_cases self : base = .symbol other
          · subst self
            exact .self coefficient
          · exact .term self
        · rw [expandTerm_of_base? found (by rw [undefined]; rfl), Except.ok.injEq] at expands
          subst expands
          exact ⟨_, expandTerm_of_base? known means, .self coefficient⟩
      · refine keepsStep_same lower found (gains.others other symbol here found)
          (fun base means => .term ?_) early expands
        -- A symbol stands for itself or for a position, so never for another symbol.
        cases meaning : symbol.meaning <;> rw [meaning] at means <;> cases means <;> simp [here]

/-- The new base has the place of the symbol in the expansion over the later table. -/
theorem Gains.exists_expand (gains : table.Gains after id target) {expr early : Expr}
    (expands : table.expand expr = .ok early) :
    ∃ late, after.expand expr = .ok late ∧ Expr.Moved (.symbol id) target early late := by
  have below : ∀ depth opened expr, KeepsStep (.symbol id) target
      (table.expandBelow depth opened expr) (after.expandBelow depth opened expr) := by
    intro depth
    induction depth using Nat.strongRecOn with
    | ind depth ih =>
      intro opened expr early expands
      rw [expandBelow_eq] at expands ⊢
      exact exists_foldlM_related (fun left right => left.add right)
        (fun term => gains.keepsStep_expandTerm (fun below same => ih below (by omega)) opened term)
        (.ofInt expr.constant) expands
  -- The later table leaves room for more EQUs than the earlier one needs.
  rw [expand, ← expandBelow_depth table.opened_nil gains.grows expr] at expands
  exact below _ _ _ _ expands

/-- A table that only gains keeps expansions into positions. -/
theorem Gains.keeps (gains : table.Gains after id target) (expr : Expr) :
    table.Keeps after expr := by
  intro result expands places
  obtain ⟨late, follows, moved⟩ := gains.exists_expand expands
  have same : late = result := by
    refine moved.eq_of_absent (normal_of_expandBelow expands) (normal_of_expandBelow follows) ?_
    intro term member isSymbol
    have isPlace := places term member
    rw [Term.isPlace, isSymbol] at isPlace
    cases isPlace
  rw [follows, same]

/-- A name that enters the table changes no meaning. -/
theorem gains_intern (table : SymbolTable) (name : String) :
    table.Gains (table.intern name).1 (table.intern name).2 (.symbol (table.intern name).2) := by
  obtain ⟨_, grows, known, others⟩ :=
    @intern_ok table (table.intern name).1 name (table.intern name).2 rfl
  refine ⟨grows, fun other symbol different found => ?_, fun symbol found => ?_⟩
  · rw [others other different, found]
  · exact ⟨symbol, known symbol found, .inl ⟨rfl, rfl⟩⟩

/-- A definition that is refused has at most brought in its name. -/
theorem define_refused {name : String} {meaning : Meaning} {line : Int} {error : Error}
    (refused : table.define name meaning line = (after, id, some error)) :
    after = (table.intern name).1 := by
  unfold define at refused
  cases named : table.intern name with
  | mk interned number =>
    obtain ⟨⟨symbol, found⟩, _⟩ := intern_ok named
    simp only [named, found] at refused
    split at refused
    · cases refused
    · cases refused
      rfl

/-- Labels and imports change no expansion into positions. -/
theorem keeps_define {name : String} {meaning : Meaning} (inert : ∀ body, meaning ≠ .equ body)
    (line : Int) (expr : Expr) : table.Keeps (table.define name meaning line).1 expr := by
  cases defined : table.define name meaning line with
  | mk after result =>
    obtain ⟨id, error⟩ := result
    cases error with
    | some error =>
      rw [define_refused defined]
      exact (table.gains_intern name).keeps expr
    | none =>
      obtain ⟨known, grows, undefined, others⟩ := define_ok defined
      obtain ⟨target, means⟩ : ∃ target, meaning.base? id = some target := by
        cases meaning with
        | undefined | imported | label => exact ⟨_, rfl⟩
        | equ body => exact absurd rfl (inert body)
      have gains : table.Gains after id target := by
        refine ⟨grows, fun other symbol different found => ?_, fun symbol found => ?_⟩
        · rw [others other different, found]
        · exact ⟨_, known, .inr ⟨undefined symbol found, means⟩⟩
      exact gains.keeps expr

/-- An EQU changes no expansion that does not reach its name. -/
theorem keeps_define_equ {name : String} {body : Expr} {line : Int} {expr : Expr}
    (unreached : ∀ after id, table.define name (.equ body) line = (after, id, none) →
      ¬ table.Reaches expr id) : table.Keeps (table.define name (.equ body) line).1 expr := by
  cases defined : table.define name (.equ body) line with
  | mk after result =>
    obtain ⟨id, error⟩ := result
    cases error with
    | some error =>
      rw [define_refused defined]
      exact (table.gains_intern name).keeps expr
    | none =>
      obtain ⟨_, grows, _, others⟩ := define_ok defined
      intro result expands _
      rw [← expands]
      refine expand_congr grows fun other reaches => others other ?_
      rintro rfl
      exact unreached after other defined reaches

end

end SymbolTable

end Assembler
