import Assembler.Proofs.Expr.Order
import Assembler.Proofs.Layout.Measures
import Mathlib.Algebra.BigOperators.Ring.Finset
import Mathlib.Algebra.Order.BigOperators.Group.Finset
import Mathlib.Data.List.Nodup
import Mathlib.Tactic.Ring

/-!
# Expanding over imports

Linking a table gives every imported symbol an address: the symbol becomes an EQU of that constant.
An expression that expands over the table expands over the linked one too (`exists_expand_link`).
The imports drop out of its terms, and its constant takes up each address as often as the import
counts in unbounded arithmetic. Where no such count wraps, that is as often as the import stood in
the terms.
-/

namespace Assembler

variable {depth : Nat} {opened : List SymbolId}

/-- A symbol with its address, if another object provides it. -/
def Symbol.link (symbol : Symbol) (address : String → UInt64) : Symbol :=
  if symbol.meaning = .imported then
    { symbol with meaning := .equ (.ofInt (address symbol.name).toNat) }
  else symbol

/-- A sum over terms takes the first, then the others. -/
theorem exists_of_foldlM_cons {visit : Term → Except Halt Expr} {term : Term} {rest : List Term}
    {start result : Expr}
    (folded : (term :: rest).foldlM (fun sum term => (visit term).map sum.add) start =
      .ok result) :
    ∃ added, visit term = .ok added ∧
      rest.foldlM (fun sum term => (visit term).map sum.add) (start.add added) = .ok result := by
  rw [List.foldlM_cons] at folded
  cases visited : visit term with
  | error halt =>
    rw [visited] at folded
    cases folded
  | ok added =>
    rw [visited] at folded
    exact ⟨added, rfl, folded⟩

namespace SymbolTable

/-- A table whose imports have their addresses. -/
def link (table : SymbolTable) (address : String → UInt64) : SymbolTable :=
  ⟨table.symbols.map fun symbol => symbol.link address⟩

/-- Whether another object provides the symbol with a number. -/
def imports (table : SymbolTable) (id : SymbolId) : Bool :=
  (table.get? id).any fun symbol => symbol.meaning = .imported

/-- Whether a base is no import. -/
def isLocal (table : SymbolTable) : Base → Bool
  | .symbol id => !table.imports id
  | .place _ => true

/-- The address of the symbol with a number. -/
def addressOf (table : SymbolTable) (address : String → UInt64) (id : SymbolId) : UInt64 :=
  address (table.nameOf id)

/-- How often an import counts in an expression, in unbounded integers, with EQUs opened up to a
depth. -/
def countBelow (table : SymbolTable) (target : SymbolId) : Nat → Expr → Int
  | depth, expr => (expr.terms.map fun term =>
      term.coefficient.toInt *
        match term.base with
        | .place _ => 0
        | .symbol id =>
          match (table.get? id).map Symbol.meaning with
          | some .imported => if id = target then 1 else 0
          | some (.equ body) =>
            match depth with
            | 0 => 0
            | depth + 1 => table.countBelow target depth body
          | _ => 0).sum

/-- How often an import counts in an expression, in unbounded integers. -/
def count (table : SymbolTable) (expr : Expr) (target : SymbolId) : Int :=
  table.countBelow target table.symbols.length expr

/-- How often an import counts in a term. -/
def countTerm (table : SymbolTable) (target : SymbolId) (depth : Nat) (term : Term) : Int :=
  term.coefficient.toInt *
    match term.base with
    | .place _ => 0
    | .symbol id =>
      match (table.get? id).map Symbol.meaning with
      | some .imported => if id = target then 1 else 0
      | some (.equ body) =>
        match depth with
        | 0 => 0
        | depth + 1 => table.countBelow target depth body
      | _ => 0

/-- The counts of terms add up. -/
theorem countBelow_eq (table : SymbolTable) (target : SymbolId) (depth : Nat) (expr : Expr) :
    table.countBelow target depth expr =
      (expr.terms.map (table.countTerm target depth)).sum := by
  unfold countBelow
  rfl

/-- What a term adds to the expansion of its expression. -/
def expandTerm (table : SymbolTable) (depth : Nat) (opened : List SymbolId) (term : Term) :
    Except Halt Expr :=
  match term.base with
  | .place _ => .ok { terms := [term] }
  | .symbol id =>
    match table.get? id with
    | none => .error (.dangling (.symbol id))
    | some symbol =>
      match symbol.meaning with
      | .undefined | .imported => .ok { terms := [term] }
      | .label place => .ok { terms := [⟨term.coefficient, .place place⟩] }
      | .equ body =>
        if id ∈ opened then .error (.problem (.circularEqu symbol.name))
        else
          match depth with
          | 0 => .error (.problem (.circularEqu symbol.name))
          | depth + 1 =>
            (table.expandBelow depth (id :: opened) body).map (·.scale term.coefficient)

/-- A term of an EQU is expanded through the body of the EQU, if that is not open. -/
theorem expandTerm_equ {table : SymbolTable} {id : SymbolId} {coefficient : Int64}
    {symbol : Symbol} {body : Expr} (found : table.get? id = some symbol)
    (means : symbol.meaning = .equ body) (closed : id ∉ opened) :
    table.expandTerm (depth + 1) opened ⟨coefficient, .symbol id⟩ =
      (table.expandBelow depth (id :: opened) body).map (·.scale coefficient) := by
  simp only [expandTerm, found, means, if_neg closed]

/-- An EQU expands to a multiple of its body's expansion. -/
theorem exists_of_expandTerm_equ {table : SymbolTable} {id : SymbolId} {coefficient : Int64}
    {symbol : Symbol} {body early : Expr} (found : table.get? id = some symbol)
    (means : symbol.meaning = .equ body)
    (expands : table.expandTerm depth opened ⟨coefficient, .symbol id⟩ = .ok early) :
    ∃ below value, depth = below + 1 ∧ id ∉ opened ∧
      table.expandBelow below (id :: opened) body = .ok value ∧
      early = value.scale coefficient := by
  by_cases isOpen : id ∈ opened
  · simp [expandTerm, found, means, isOpen] at expands
  · cases depth with
    | zero => simp [expandTerm, found, means, isOpen] at expands
    | succ below =>
      rw [expandTerm_equ found means isOpen] at expands
      cases inner : table.expandBelow below (id :: opened) body <;> rw [inner] at expands <;>
        cases expands
      exact ⟨below, _, rfl, isOpen, inner, rfl⟩

/-- Adding a single term. -/
theorem add_singleton (sum : Expr) (term : Term) :
    sum.add { terms := [term] } = sum.addTerm term := by
  simp [Expr.add, Expr.addTerm]

/-- An expansion is the sum of what its terms add. -/
theorem expandBelow_eq (table : SymbolTable) (depth : Nat) (opened : List SymbolId) (expr : Expr) :
    table.expandBelow depth opened expr =
      expr.terms.foldlM (fun sum term => (table.expandTerm depth opened term).map sum.add)
        (.ofInt expr.constant) := by
  unfold expandBelow
  congr 1
  funext sum term
  unfold expandTerm
  cases term.base with
  | place location => simp [Except.map, add_singleton]
  | symbol id =>
    dsimp only
    cases table.get? id with
    | none => rfl
    | some symbol =>
      dsimp only
      cases symbol.meaning with
      | undefined | imported | label => simp [Except.map, add_singleton]
      | equ body =>
        dsimp only
        split
        · rfl
        · cases depth with
          | zero => rfl
          | succ depth =>
            dsimp only
            cases table.expandBelow depth (id :: opened) body <;> rfl

/-- Linking keeps the numbers of symbols. -/
theorem get?_link (table : SymbolTable) (address : String → UInt64) (id : SymbolId) :
    (table.link address).get? id = (table.get? id).map fun symbol => symbol.link address := by
  unfold get? link
  split
  · rw [List.getElem?_map]
  · rfl

/-- A symbol of the table has a number that is no more than the number of symbols. -/
theorem get?_bounds {table : SymbolTable} {id : SymbolId} {symbol : Symbol}
    (found : table.get? id = some symbol) :
    ∃ index < table.symbols.length, id = (index : Int) + 1 := by
  unfold get? at found
  split at found
  · next index => exact ⟨index, (List.getElem?_eq_some_iff.mp found).1, by simp⟩
  · cases found

/-- EQUs that are open, with a depth that is left for the others. -/
structure Opened (table : SymbolTable) (depth : Nat) (opened : List SymbolId) : Prop where
  room : table.symbols.length ≤ depth + opened.length
  distinct : opened.Nodup
  equs : ∀ id ∈ opened, ∃ symbol body, table.get? id = some symbol ∧ symbol.meaning = .equ body

/-- An EQU that is not open yet can be opened. -/
theorem Opened.cons {table : SymbolTable} {depth : Nat} {opened : List SymbolId} {id : SymbolId}
    {symbol : Symbol} {body : Expr} (state : table.Opened (depth + 1) opened) (closed : id ∉ opened)
    (found : table.get? id = some symbol) (means : symbol.meaning = .equ body) :
    table.Opened depth (id :: opened) := by
  refine ⟨?_, List.nodup_cons.mpr ⟨closed, state.distinct⟩, ?_⟩
  · have room := state.room
    simp only [List.length_cons]
    omega
  · intro other member
    rcases List.mem_cons.mp member with rfl | inOpened
    · exact ⟨symbol, body, found, means⟩
    · exact state.equs other inOpened

section

variable {id : SymbolId} {symbol : Symbol} {table : SymbolTable}
  (state : table.Opened depth opened) (found : table.get? id = some symbol)
include state found

/-- No import is opened. -/
theorem Opened.not_mem_of_imported (means : symbol.meaning = .imported) : id ∉ opened := by
  intro isOpen
  obtain ⟨other, body, same, isEqu⟩ := state.equs id isOpen
  rw [found, Option.some.injEq] at same
  rw [← same, means] at isEqu
  cases isEqu

/-- The depth is not used up at a symbol that is not open. -/
theorem Opened.depth_pos (closed : id ∉ opened) : 0 < depth := by
  have numbers : (id :: opened) ⊆ (List.range table.symbols.length).map fun index : Nat =>
      (index : Int) + 1 := by
    intro other member
    obtain ⟨entry, known⟩ : ∃ entry, table.get? other = some entry := by
      rcases List.mem_cons.mp member with rfl | inOpened
      · exact ⟨symbol, found⟩
      · obtain ⟨entry, _, known, _⟩ := state.equs other inOpened
        exact ⟨entry, known⟩
    obtain ⟨index, inRange, rfl⟩ := get?_bounds known
    exact List.mem_map.mpr ⟨index, List.mem_range.mpr inRange, rfl⟩
  have distinct := List.nodup_cons.mpr ⟨closed, state.distinct⟩
  have fewer := (List.Nodup.subperm distinct numbers).length_le
  have room := state.room
  simp only [List.length_cons, List.length_map, List.length_range] at fewer
  omega

end

/-- An expansion over a table and the one over the linked table, with the counts of the imports. -/
structure Follows (table : SymbolTable) (address : String → UInt64) (early late : Expr)
    (counts : SymbolId → Int) : Prop where
  ordered : Expr.Ordered early.terms
  terms : late.terms = early.terms.filter fun term => table.isLocal term.base
  constant : late.constant = early.constant +
    ∑ index ∈ Finset.range table.symbols.length,
      counts ((index : Int) + 1) * (table.addressOf address ((index : Int) + 1)).toNat
  coefficients : ∀ id, table.imports id = true →
    Expr.coefficientOf early.terms (.symbol id) = Int64.ofInt (counts id)
  others : ∀ id, table.imports id = false → counts id = 0

namespace Follows

variable {table : SymbolTable} {address : String → UInt64} {early late : Expr}
  {counts : SymbolId → Int}

theorem ofInt (value : Int) : table.Follows address (.ofInt value) (.ofInt value) fun _ => 0 where
  ordered := .nil
  terms := rfl
  constant := by simp
  coefficients := by
    intro id _
    rfl
  others := by simp

/-- Sums of linked expressions are linked. -/
theorem add (follows : table.Follows address early late counts) {other otherLate : Expr}
    {otherCounts : SymbolId → Int} (others : table.Follows address other otherLate otherCounts) :
    table.Follows address (early.add other) (late.add otherLate)
      fun id => counts id + otherCounts id := by
  obtain ⟨ordered, filtered⟩ :=
    follows.ordered.insertTerms table.isLocal others.ordered.proper
  refine ⟨ordered, ?_, ?_, ?_, fun id outside => ?_⟩
  · simp only [Expr.add, follows.terms, others.terms]
    exact filtered.symm
  · simp only [Expr.add, follows.constant, others.constant, add_mul, Finset.sum_add_distrib]
    omega
  · intro id imported
    rw [Expr.add, Expr.coefficientOf_insertTerms, follows.coefficients id imported,
      others.coefficients id imported, Int64.ofInt_add]
  · rw [follows.others id outside, others.others id outside, Int.add_zero]

/-- Multiples of linked expressions are linked. -/
theorem scale (follows : table.Follows address early late counts) (factor : Int64) :
    table.Follows address (early.scale factor) (late.scale factor)
      fun id => factor.toInt * counts id where
  ordered := follows.ordered.scale factor
  terms := by rw [Expr.filter_scale, Expr.scale, follows.terms]
  constant := by
    simp only [Expr.scale, follows.constant, add_mul, Finset.sum_mul]
    congr 1
    apply Finset.sum_congr rfl
    intro index _
    ring
  coefficients := by
    intro id imported
    rw [Expr.coefficientOf_scale, follows.coefficients id imported, Int64.ofInt_mul,
      Int64.ofInt_toInt, Int64.mul_comm]
  others := by
    intro id outside
    rw [follows.others id outside, Int.mul_zero]

/-- A term that is no import stays. -/
theorem term {term : Term} (proper : term.base.Proper) (isLocal : table.isLocal term.base = true) :
    table.Follows address { terms := [term] } { terms := [term] } fun _ => 0 where
  ordered := .singleton proper
  terms := by simp [isLocal]
  constant := by simp
  coefficients := by
    intro id imported
    have other : term.base ≠ .symbol id := by
      intro same
      rw [same] at isLocal
      simp [SymbolTable.isLocal, imported] at isLocal
    simp [Expr.coefficientOf, other]
  others := by simp

/-- An import becomes its address. -/
theorem imported {index : Nat} (inRange : index < table.symbols.length)
    (imports : table.imports ((index : Int) + 1) = true) (coefficient : Int64) :
    table.Follows address { terms := [⟨coefficient, .symbol ((index : Int) + 1)⟩] }
      ((Expr.ofInt (table.addressOf address ((index : Int) + 1)).toNat).scale coefficient)
      fun id => coefficient.toInt * if (index : Int) + 1 = id then 1 else 0 where
  ordered :=
    have positive : (index : Int) + 1 ≠ 0 := by omega
    .singleton positive
  terms := by simp [SymbolTable.isLocal, imports, Expr.scale, Expr.ofInt]
  constant := by
    rw [Finset.sum_eq_single index]
    · simp [Expr.scale, Expr.ofInt, Int.mul_comm]
    · intro other _ different
      simp [Ne.symm different]
    · intro outside
      exact absurd (Finset.mem_range.mpr inRange) outside
  coefficients := by
    intro id _
    by_cases same : (index : Int) + 1 = id <;> simp [Expr.coefficientOf, same]
  others := by
    intro id outside
    have different : (index : Int) + 1 ≠ id := by
      rintro rfl
      rw [imports] at outside
      cases outside
    rw [if_neg different, Int.mul_zero]

end Follows

section

variable {table : SymbolTable} (address : String → UInt64)

/-- What a term adds over the linked table follows what it adds over the table, if expressions
inside EQUs do. -/
theorem exists_expandTerm_link
    (lower : ∀ below, depth = below + 1 → ∀ opened expr early, table.Opened below opened →
      table.expandBelow below opened expr = .ok early →
        ∃ late, (table.link address).expandBelow below opened expr = .ok late ∧
          table.Follows address early late fun id => table.countBelow id below expr)
    (state : table.Opened depth opened) {term : Term} {early : Expr}
    (expands : table.expandTerm depth opened term = .ok early) :
    ∃ late, (table.link address).expandTerm depth opened term = .ok late ∧
      table.Follows address early late fun id => table.countTerm id depth term := by
  obtain ⟨coefficient, base⟩ := term
  have whole := expands
  unfold expandTerm at expands ⊢
  unfold countTerm
  cases base with
  | place location =>
    cases expands
    refine ⟨_, rfl, ?_⟩
    simp only [Int.mul_zero]
    exact .term trivial rfl
  | symbol id =>
    simp only [get?_link] at expands ⊢
    cases found : table.get? id with
    | none => simp [found] at expands
    | some symbol =>
      obtain ⟨index, inRange, rfl⟩ := get?_bounds found
      have positive : (index : Int) + 1 ≠ 0 := by omega
      simp only [found, Option.map_some] at expands ⊢
      cases means : symbol.meaning with
      | undefined =>
        simp only [means, Except.ok.injEq] at expands
        subst expands
        refine ⟨{ terms := [⟨coefficient, .symbol ((index : Int) + 1)⟩] },
          by simp [Symbol.link, means], ?_⟩
        simp only [Int.mul_zero]
        exact .term positive (by simp [isLocal, imports, found, means])
      | label place =>
        simp only [means, Except.ok.injEq] at expands
        subst expands
        refine ⟨{ terms := [⟨coefficient, .place place⟩] }, by simp [Symbol.link, means], ?_⟩
        simp only [Int.mul_zero]
        exact .term trivial rfl
      | imported =>
        simp only [means, Except.ok.injEq] at expands
        subst expands
        have closed := state.not_mem_of_imported found means
        obtain ⟨below, rfl⟩ := Nat.exists_eq_succ_of_ne_zero
          (Nat.ne_of_gt (state.depth_pos found closed))
        have follows := @Follows.imported table address index inRange
          (by simp [imports, found, means]) coefficient
        refine ⟨_, ?_, follows⟩
        simp [Symbol.link, means, closed, expandBelow_eq, Except.map, addressOf, nameOf, found,
          Expr.ofInt, pure, Except.pure]
      | equ body =>
        obtain ⟨below, value, rfl, closed, inner, rfl⟩ := exists_of_expandTerm_equ found means whole
        have kept : symbol.link address = symbol := by simp [Symbol.link, means]
        simp only [kept, means, if_neg closed]
        obtain ⟨late, linked, follows⟩ :=
          lower below rfl _ _ _ (state.cons closed found means) inner
        exact ⟨late.scale coefficient, by simp [linked, Except.map], follows.scale coefficient⟩

/-- The sum of terms over the linked table follows the sum over the table, if each term does. -/
theorem exists_expandBelow_link {expr early : Expr}
    (each : ∀ term early, table.expandTerm depth opened term = .ok early →
      ∃ late, (table.link address).expandTerm depth opened term = .ok late ∧
        table.Follows address early late fun id => table.countTerm id depth term)
    (expands : table.expandBelow depth opened expr = .ok early) :
    ∃ late, (table.link address).expandBelow depth opened expr = .ok late ∧
      table.Follows address early late fun id => table.countBelow id depth expr := by
  have sums : ∀ (terms : List Term) (start lateStart early : Expr) (counts : SymbolId → Int),
      table.Follows address start lateStart counts →
      terms.foldlM (fun sum term => (table.expandTerm depth opened term).map sum.add) start =
        .ok early →
      ∃ late,
        terms.foldlM (fun sum term =>
          ((table.link address).expandTerm depth opened term).map sum.add) lateStart = .ok late ∧
        table.Follows address early late
          fun id => counts id + (terms.map (table.countTerm id depth)).sum := by
    intro terms
    induction terms with
    | nil =>
      intro start lateStart early counts follows folded
      cases folded
      refine ⟨lateStart, rfl, ?_⟩
      simpa using follows
    | cons term rest ih =>
      intro start lateStart early counts follows folded
      obtain ⟨added, adds, folded⟩ := exists_of_foldlM_cons folded
      obtain ⟨lateAdded, lateAdds, followsAdded⟩ := each term added adds
      obtain ⟨late, lateFolded, followsAll⟩ :=
        ih _ _ _ _ (follows.add followsAdded) folded
      refine ⟨late, ?_, ?_⟩
      · rw [List.foldlM_cons, lateAdds]
        exact lateFolded
      · simpa only [List.map_cons, List.sum_cons, Int.add_assoc] using followsAll
  rw [expandBelow_eq] at expands ⊢
  obtain ⟨late, folded, follows⟩ := sums _ _ _ _ _ (Follows.ofInt expr.constant) expands
  refine ⟨late, folded, ?_⟩
  simpa only [countBelow_eq, Int.zero_add] using follows

/-- An expression that expands over a table expands over the linked table. -/
theorem exists_expand_link {expr early : Expr} (expands : table.expand expr = .ok early) :
    ∃ late, (table.link address).expand expr = .ok late ∧
      table.Follows address early late (table.count expr) := by
  have below : ∀ depth opened expr early, table.Opened depth opened →
      table.expandBelow depth opened expr = .ok early →
        ∃ late, (table.link address).expandBelow depth opened expr = .ok late ∧
          table.Follows address early late fun id => table.countBelow id depth expr := by
    intro depth
    induction depth using Nat.strongRecOn with
    | ind depth ih =>
      intro opened expr early state
      exact exists_expandBelow_link address fun term early => exists_expandTerm_link address
        (fun below same => ih below (by omega)) state
  have start : table.Opened table.symbols.length [] := ⟨Nat.le_refl _, List.nodup_nil, by simp⟩
  unfold expand
  rw [show (table.link address).symbols.length = table.symbols.length from List.length_map ..]
  exact below _ _ _ _ start expands

end

end SymbolTable

end Assembler
