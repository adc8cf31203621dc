import Assembler.Proofs.Layout.Start
import Assembler.Proofs.Symbol.Value
import Mathlib.Logic.Relation

/-!
# What expanding an expression gives

Expanding fails exactly if an EQU that the expression reaches refers back to itself, and then names
such an EQU (`exists_circular_of_error`, `acc_of_ok`). Otherwise the expansion keeps the meaning of
the expression. The bound on the depth plays no part in either (`expandBelow_depth`).
-/

namespace Assembler

variable {halt : Halt} {result : Expr}

variable {expr : Expr} {id : SymbolId} {depth : Nat} {opened : List SymbolId}

/-- Whether an expression has a term of the symbol with a number. -/
def Expr.Mentions (expr : Expr) (id : SymbolId) : Prop :=
  ∃ term ∈ expr.terms, term.base = .symbol id

/-- A fold that stops has met a term that stops it. -/
theorem exists_of_foldlM_error {visit : Term → Except Halt Expr} {terms : List Term} {start : Expr}
    (stops : terms.foldlM (fun sum term => (visit term).map sum.add) start = .error halt) :
    ∃ term ∈ terms, visit term = .error halt := by
  induction terms generalizing start with
  | nil => cases stops
  | cons first rest ih =>
    rw [List.foldlM_cons] at stops
    cases visited : visit first with
    | error halted =>
      rw [visited] at stops
      cases stops
      exact ⟨first, List.mem_cons_self, visited⟩
    | ok added =>
      rw [visited] at stops
      obtain ⟨term, member, fails⟩ := ih stops
      exact ⟨term, List.mem_cons_of_mem _ member, fails⟩

/-- If a sum is found, so is each of its parts. -/
theorem forall_of_foldlM_ok {visit : Term → Except Halt Expr} {terms : List Term}
    {start : Expr}
    (ends : terms.foldlM (fun sum term => (visit term).map sum.add) start = .ok result) :
    ∀ term ∈ terms, ∃ added, visit term = .ok added := by
  induction terms generalizing start with
  | nil =>
    intro term member
    cases member
  | cons first rest ih =>
    obtain ⟨added, visited, ends⟩ := exists_of_foldlM_cons ends
    exact List.forall_mem_cons.mpr ⟨⟨added, visited⟩, ih ends⟩

namespace SymbolTable

/-- An EQU refers to the symbols that its body mentions. -/
def Refers (table : SymbolTable) (id other : SymbolId) : Prop :=
  ∃ symbol body, table.get? id = some symbol ∧ symbol.meaning = .equ body ∧ body.Mentions other

/-- The symbols that an expression mentions, directly or through EQUs. -/
def Reaches (table : SymbolTable) (expr : Expr) (id : SymbolId) : Prop :=
  ∃ start, expr.Mentions start ∧ Relation.ReflTransGen table.Refers start id

/-- An EQU that refers back to itself, directly or through others. -/
def Circular (table : SymbolTable) (id : SymbolId) : Prop := Relation.TransGen table.Refers id id

section

variable {table : SymbolTable}

/-- What the body of an EQU reaches, an expression that mentions the EQU reaches. -/
theorem Reaches.of_body {body : Expr} {other : SymbolId} {symbol : Symbol}
    (mentioned : expr.Mentions id) (found : table.get? id = some symbol)
    (means : symbol.meaning = .equ body) (reaches : table.Reaches body other) :
    table.Reaches expr other := by
  obtain ⟨start, inBody, path⟩ := reaches
  exact ⟨id, mentioned, .head ⟨symbol, body, found, means, inBody⟩ path⟩

/-- Only an EQU can stop an expansion: one that is open, or whose body stops it. -/
theorem expandTerm_error (state : table.Opened depth opened) {term : Term}
    (known : ∀ id, term.base = .symbol id → (table.get? id).isSome)
    (fails : table.expandTerm depth opened term = .error halt) :
    ∃ id symbol body, term.base = .symbol id ∧ table.get? id = some symbol ∧
      symbol.meaning = .equ body ∧
      ((id ∈ opened ∧ halt = .problem (.circularEqu symbol.name)) ∨
        ∃ below, depth = below + 1 ∧ id ∉ opened ∧
          table.expandBelow below (id :: opened) body = .error halt) := by
  obtain ⟨coefficient, base⟩ := term
  cases base with
  | place location => cases fails
  | symbol id =>
    obtain ⟨symbol, found⟩ := Option.isSome_iff_exists.mp (known id rfl)
    cases means : symbol.meaning with
    | undefined | imported | label => simp [expandTerm, found, means] at fails
    | equ body =>
      refine ⟨id, symbol, body, rfl, found, means, ?_⟩
      by_cases isOpen : id ∈ opened
      · simp only [expandTerm, found, means, if_pos isOpen, Except.error.injEq] at fails
        exact .inl ⟨isOpen, fails.symm⟩
      · obtain ⟨below, rfl⟩ := Nat.exists_eq_succ_of_ne_zero
          (Nat.ne_of_gt (state.depth_pos found isOpen))
        rw [Nat.succ_eq_add_one, expandTerm_equ found means isOpen] at fails
        refine .inr ⟨below, rfl, isOpen, ?_⟩
        cases inner : table.expandBelow below (id :: opened) body with
        | error halted => simpa [inner, Except.map] using fails
        | ok value => simp [inner, Except.map] at fails

/-- An expansion that fails has met an EQU that refers back to itself, and names it. -/
theorem exists_circular_of_error (state : table.Opened depth opened)
    (leads : ∀ id ∈ opened, ∀ start, expr.Mentions start → Relation.TransGen table.Refers id start)
    (valid : ∀ id, table.Reaches expr id → (table.get? id).isSome)
    (fails : table.expandBelow depth opened expr = .error halt) :
    ∃ id symbol, table.Reaches expr id ∧ table.Circular id ∧ table.get? id = some symbol ∧
      halt = .problem (.circularEqu symbol.name) := by
  induction depth using Nat.strongRecOn generalizing opened expr with
  | ind depth ih =>
    rw [expandBelow_eq] at fails
    obtain ⟨term, member, fails⟩ := exists_of_foldlM_error fails
    obtain ⟨id, symbol, body, isSymbol, found, means, stopped⟩ :=
      expandTerm_error state (fun id same => valid id ⟨id, ⟨term, member, same⟩, .refl⟩) fails
    have mentioned : expr.Mentions id := ⟨term, member, isSymbol⟩
    rcases stopped with ⟨isOpen, same⟩ | ⟨below, rfl, closed, inner⟩
    · exact ⟨id, symbol, ⟨id, mentioned, .refl⟩, leads id isOpen id mentioned, found, same⟩
    · have refers : ∀ start, body.Mentions start → table.Refers id start :=
        fun start inBody => ⟨symbol, body, found, means, inBody⟩
      have leadsOn : ∀ other ∈ id :: opened, ∀ start, body.Mentions start →
          Relation.TransGen table.Refers other start := by
        intro other isOpen start inBody
        rcases List.mem_cons.mp isOpen with rfl | before
        · exact .single (refers start inBody)
        · exact (leads other before id mentioned).tail (refers start inBody)
      obtain ⟨last, entry, reaches, circular, known, same⟩ :=
        ih below (Nat.lt_succ_self below) (state.cons closed found means) leadsOn
          (fun other reaches => valid other (reaches.of_body mentioned found means)) inner
      exact ⟨last, entry, reaches.of_body mentioned found means, circular, known, same⟩

/-- From what an expression mentions that was expanded, EQUs do not lead on for ever. -/
theorem acc_of_ok (expands : table.expandBelow depth opened expr = .ok result)
    (mentioned : expr.Mentions id) : Acc (fun later earlier => table.Refers earlier later) id := by
  induction depth using Nat.strongRecOn generalizing opened expr result id with
  | ind depth ih =>
    rw [expandBelow_eq] at expands
    obtain ⟨⟨coefficient, base⟩, member, isSymbol⟩ := mentioned
    obtain ⟨added, adds⟩ := forall_of_foldlM_ok expands _ member
    cases isSymbol
    refine ⟨id, fun other refers => ?_⟩
    obtain ⟨symbol, body, found, means, inBody⟩ := refers
    obtain ⟨below, _, rfl, _, inner, _⟩ := exists_of_expandTerm_equ found means adds
    exact ih below (Nat.lt_succ_self below) inner inBody

/-- Nothing that an expanded expression reaches refers back to itself. -/
theorem not_circular_of_ok (expands : table.expand expr = .ok result)
    (reaches : table.Reaches expr id) : ¬ table.Circular id := by
  obtain ⟨start, mentioned, path⟩ := reaches
  have ends := acc_of_ok expands mentioned
  have lasts : Acc (fun later earlier => table.Refers earlier later) id := by
    induction path with
    | refl => exact ends
    | tail _ refers ih => exact ih.inv refers
  clear path
  induction lasts with
  | intro id _ ih =>
    intro circular
    obtain ⟨next, refers, back⟩ := Relation.TransGen.head'_iff.mp circular
    exact ih next refers (Relation.TransGen.tail' back refers)

/-- A depth that suffices is as good as any greater one. -/
theorem expandBelow_depth {more : Nat} (state : table.Opened depth opened) (enough : depth ≤ more)
    (expr : Expr) :
    table.expandBelow more opened expr = table.expandBelow depth opened expr := by
  induction depth using Nat.strongRecOn generalizing more opened expr with
  | ind depth ih =>
    rw [expandBelow_eq, expandBelow_eq]
    congr 1
    funext sum term
    congr 1
    obtain ⟨coefficient, base⟩ := term
    cases base with
    | place location => rfl
    | symbol id =>
      cases found : table.get? id with
      | none => simp only [expandTerm, found]
      | some symbol =>
        cases means : symbol.meaning with
        | undefined | imported | label => simp only [expandTerm, found, means]
        | equ body =>
          by_cases isOpen : id ∈ opened
          · simp only [expandTerm, found, means, if_pos isOpen]
          · obtain ⟨below, rfl⟩ := Nat.exists_eq_succ_of_ne_zero
              (Nat.ne_of_gt (state.depth_pos found isOpen))
            obtain ⟨above, rfl⟩ := Nat.exists_eq_succ_of_ne_zero
              (Nat.ne_of_gt (Nat.lt_of_lt_of_le (Nat.succ_pos below) enough))
            rw [Nat.succ_eq_add_one, Nat.succ_eq_add_one, expandTerm_equ found means isOpen,
              expandTerm_equ found means isOpen, ih below (Nat.lt_succ_self below)
                (state.cons isOpen found means) (Nat.le_of_succ_le_succ enough)]

theorem opened_nil (table : SymbolTable) : table.Opened table.symbols.length [] :=
  ⟨Nat.le_refl _, List.nodup_nil, by simp⟩

/-- Expanding an expression over known symbols. The bound on the depth does not matter. It fails
exactly if the expression reaches an EQU that refers back to itself, and then names such an EQU.
Otherwise the expansion is in normal form, has only positions and unresolved symbols and an exact
constant, and weighs each base as often as it counts in the expression, up to wrapping; its value is
that of the expression up to a multiple of `2 ^ 64`, and exactly if every count is a word. -/
theorem expand_keeps_meaning (table : SymbolTable) (expr : Expr)
    (known : ∀ id, table.Reaches expr id → (table.get? id).isSome = true) :
    (∀ depth, table.symbols.length ≤ depth →
      table.expandBelow depth [] expr = table.expand expr) ∧
    ((∃ halt, table.expand expr = .error halt) ↔
      ∃ id, table.Reaches expr id ∧ table.Circular id) ∧
    (∀ halt, table.expand expr = .error halt →
      ∃ id symbol, table.Reaches expr id ∧ table.Circular id ∧ table.get? id = some symbol ∧
        halt = .problem (.circularEqu symbol.name) ∧
        (Error.circularEqu symbol.name).causes = [.circularReference]) ∧
    ∀ result, table.expand expr = .ok result →
      result.Normal ∧ (∀ term ∈ result.terms, table.Unresolved term.base) ∧
      table.Values (fun _ => 0) expr result.constant ∧
      (∀ base count, table.Counts expr base count →
        Expr.coefficientOf result.terms base = Int64.ofInt count) ∧
      ∀ assignment, (∃ value, table.Values assignment expr value) ∧
        ∀ value, table.Values assignment expr value →
          result.value assignment ≡ value [ZMOD 2 ^ 64] ∧
          ((∀ base, ∃ count, table.Counts expr base count ∧ isWord count = true) →
            result.value assignment = value) := by
  have names : ∀ halt, table.expand expr = .error halt →
      ∃ id symbol, table.Reaches expr id ∧ table.Circular id ∧ table.get? id = some symbol ∧
        halt = .problem (.circularEqu symbol.name) := by
    intro halt fails
    refine exists_circular_of_error table.opened_nil ?_ known fails
    intro id isOpen
    cases isOpen
  refine ⟨fun depth enough => expandBelow_depth table.opened_nil enough expr, ⟨?_, ?_⟩, ?_, ?_⟩
  · rintro ⟨halt, fails⟩
    obtain ⟨id, _, reaches, circular, _⟩ := names halt fails
    exact ⟨id, reaches, circular⟩
  · rintro ⟨id, reaches, circular⟩
    cases outcome : table.expand expr with
    | error halt => exact ⟨halt, rfl⟩
    | ok result => exact absurd circular (not_circular_of_ok outcome reaches)
  · intro halt fails
    obtain ⟨id, symbol, reaches, circular, found, same⟩ := names halt fails
    exact ⟨id, symbol, reaches, circular, found, same, rfl⟩
  · intro result expands
    obtain ⟨weights, weighed, values⟩ := exists_weights expands
    have counts := counts_of_weights values
    refine ⟨⟨weighed.ordered, expandBelow_nonzero expands⟩, weighed.unresolved, ?_, ?_, ?_⟩
    · simpa [Finsupp.linearCombination_apply] using values fun _ => 0
    · intro base count isCount
      rw [weighed.coefficients, (counts base count).mp isCount]
    · intro assignment
      refine ⟨⟨_, values assignment⟩, fun value isValue => ?_⟩
      rw [isValue.unique (values assignment)]
      refine ⟨weighed.value_modEq assignment, fun words => weighed.value_eq (fun base => ?_) _⟩
      obtain ⟨count, isCount, word⟩ := words base
      rwa [(counts base count).mp isCount] at word

end

/-- Whether the table has every symbol of some terms. -/
def knows (table : SymbolTable) (terms : List Term) : Bool :=
  terms.all fun term =>
    match term.base with
    | .symbol id => (table.get? id).isSome
    | .place _ => true

/-- Whether the table has every symbol that its EQUs mention. -/
def closed (table : SymbolTable) : Bool :=
  table.symbols.all fun symbol =>
    match symbol.meaning with
    | .equ body => table.knows body.terms
    | _ => true

/-- A table has the symbols of terms that it knows. -/
theorem isSome_of_mentions {table : SymbolTable} (knows : table.knows expr.terms = true)
    (mentioned : expr.Mentions id) :
    (table.get? id).isSome = true := by
  obtain ⟨⟨coefficient, base⟩, member, isSymbol⟩ := mentioned
  cases isSymbol
  exact List.all_eq_true.mp knows _ member

/-- A closed table has every symbol that an expression over its symbols reaches. -/
theorem isSome_of_reaches {table : SymbolTable} (closed : table.closed = true)
    (knows : table.knows expr.terms = true) (reaches : table.Reaches expr id) :
    (table.get? id).isSome = true := by
  obtain ⟨start, mentioned, path⟩ := reaches
  induction path with
  | refl => exact isSome_of_mentions knows mentioned
  | tail _ refers _ =>
    obtain ⟨symbol, body, found, means, inBody⟩ := refers
    obtain ⟨index, _, rfl⟩ := get?_bounds found
    have inTable : symbol ∈ table.symbols := List.mem_of_getElem? found
    have bodies := List.all_eq_true.mp closed symbol inTable
    rw [means] at bodies
    exact isSome_of_mentions bodies inBody

end SymbolTable

/-- A label, an import, EQUs above each other, two EQUs that refer to each other, and one whose
coefficient is as far from zero as a word can be. -/
def layered : SymbolTable where
  symbols :=
    [{ name := "start", meaning := .label ⟨0, 1, 0⟩ },
      { name := "x", meaning := .imported },
      { name := "near", meaning := .equ ⟨5, [⟨1, .symbol 2⟩]⟩ },
      { name := "pair", meaning := .equ ⟨1, [⟨1, .symbol 1⟩, ⟨2, .symbol 3⟩]⟩ },
      { name := "ping", meaning := .equ ⟨0, [⟨1, .symbol 6⟩]⟩ },
      { name := "pong", meaning := .equ ⟨0, [⟨1, .symbol 5⟩]⟩ },
      { name := "huge", meaning := .equ ⟨0, [⟨-9223372036854775808, .symbol 2⟩]⟩ }]

/-- Three times `pair` and `near` taken off, which is in `pair` too. -/
def layeredSum : Expr := ⟨7, [⟨-1, .symbol 3⟩, ⟨3, .symbol 4⟩]⟩

/-- The value of the sum, worked out by hand. -/
theorem values_layeredSum (assignment : Base → Int) :
    layered.Values assignment layeredSum
      (35 + 3 * assignment (.place ⟨0, 1, 0⟩) + 5 * assignment (.symbol 2)) := by
  have near := @SymbolTable.Adds.unresolved layered assignment 1 2 _ _ _ rfl (.inr rfl) .nil
  have pair := @SymbolTable.Adds.label layered assignment 1 1 _ _ _ _ rfl rfl
    (@SymbolTable.Adds.equ layered assignment 2 3 _ _ _ _ _ rfl rfl near .nil)
  have sum := @SymbolTable.Adds.equ layered assignment (-1) 3 _ _ _ _ _ rfl rfl near
    (@SymbolTable.Adds.equ layered assignment 3 4 _ _ _ _ _ rfl rfl pair .nil)
  have words : Int64.toInt 1 = 1 ∧ Int64.toInt 2 = 2 ∧ Int64.toInt 3 = 3 ∧
      Int64.toInt (-1) = -1 := by decide
  obtain ⟨one, two, three, minus⟩ := words
  refine Eq.mpr (congrArg (layered.Adds assignment layeredSum.terms) ?_) sum
  simp only [layeredSum, one, two, three, minus]
  ring

/-- The sum is expanded exactly. The EQUs that refer to each other are refused by name. A
coefficient that wraps to zero leaves a value that is right up to a multiple of `2 ^ 64` only. -/
theorem layered_keeps_meaning :
    (∃ result, layered.expand layeredSum = .ok result ∧
      result = ⟨35, [⟨3, .place ⟨0, 1, 0⟩⟩, ⟨5, .symbol 2⟩]⟩ ∧
      ∀ assignment value, layered.Values assignment layeredSum value →
        result.value assignment = value) ∧
    (∃ id, layered.Reaches ⟨0, [⟨1, .symbol 5⟩]⟩ id ∧ layered.Circular id) ∧
    layered.expand ⟨0, [⟨1, .symbol 5⟩]⟩ = .error (.problem (.circularEqu "ping")) ∧
    ∃ result, layered.expand ⟨3, [⟨2, .symbol 7⟩]⟩ = .ok result ∧ result = ⟨3, []⟩ ∧
      ∀ assignment value, layered.Values assignment ⟨3, [⟨2, .symbol 7⟩]⟩ value →
        result.value assignment ≡ value [ZMOD 2 ^ 64] := by
  have closed : layered.closed = true := by decide +kernel
  have knows : ∀ {expr : Expr}, layered.knows expr.terms = true →
      ∀ id, layered.Reaches expr id → (layered.get? id).isSome = true :=
    fun known _ => SymbolTable.isSome_of_reaches closed known
  refine ⟨?_, ?_, by decide +kernel, ?_⟩
  · obtain ⟨result, expands, same⟩ := exists_ok_of_any (layered.expand layeredSum)
      (p := fun result => result = ⟨35, [⟨3, .place ⟨0, 1, 0⟩⟩, ⟨5, .symbol 2⟩]⟩)
      (by decide +kernel)
    obtain ⟨_, _, _, keeps⟩ :=
      SymbolTable.expand_keeps_meaning layered layeredSum (knows (by decide +kernel))
    refine ⟨result, expands, same, fun assignment value isValue => ?_⟩
    obtain ⟨_, exact⟩ := (keeps result expands).2.2.2.2 assignment
    refine (exact value isValue).2 fun base => ?_
    refine ⟨3 * (if .place ⟨0, 1, 0⟩ = base then 1 else 0) +
      5 * (if .symbol 2 = base then 1 else 0), ?_, ?_⟩
    · intro before value grown isBefore isGrown
      rw [isBefore.unique (values_layeredSum _), isGrown.unique (values_layeredSum _)]
      ring
    · split <;> split <;> decide
  · obtain ⟨_, iff, _⟩ :=
      SymbolTable.expand_keeps_meaning layered ⟨0, [⟨1, .symbol 5⟩]⟩ (knows (by decide +kernel))
    exact iff.mp ⟨.problem (.circularEqu "ping"), by decide +kernel⟩
  · obtain ⟨result, expands, same⟩ := exists_ok_of_any (layered.expand ⟨3, [⟨2, .symbol 7⟩]⟩)
      (p := fun result => result = ⟨3, []⟩) (by decide +kernel)
    obtain ⟨_, _, _, keeps⟩ :=
      SymbolTable.expand_keeps_meaning layered ⟨3, [⟨2, .symbol 7⟩]⟩ (knows (by decide +kernel))
    refine ⟨result, expands, same, fun assignment value isValue => ?_⟩
    exact (((keeps result expands).2.2.2.2 assignment).2 value isValue).1

end Assembler
