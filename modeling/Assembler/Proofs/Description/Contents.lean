import Assembler.Description.Build
import Assembler.Proofs.Formula.Exactness

/-!
# The formulas of items

Building reads the formulas of an item from left to right, and names that are new enter the symbol
table on the way. `SymbolTable.Reads` says which expression a text stands for by the numbers that a
table gives its names; a table that comes later gives the same (`Reads.mono`). So the expressions in
the chunk of an item can be said by the last table alone (`Building.formulas_of_chunk`).
-/

namespace Assembler

variable {sources : List String}

/-! ### Texts and expressions -/

/-- A text stands for an expression: its tokens are derived from the grammar, and the formula means
the expression with the numbers of its names and with the place for the current position. -/
def SymbolTable.Reads (table : SymbolTable) (place : Option Location) (source : String)
    (expr : Expr) : Prop :=
  ∃ tree : Formula.Tree .sum, Token.Lexes (Token.content source) tree.tokens ∧
    ∃ ids, List.Forall₂ (fun name id => table.find? name = some id)
        (Formula.names tree.formula) ids ∧
      Formula.Means place tree.formula ids expr

/-- Further symbols do not change what a formula reads as. -/
theorem SymbolTable.Reads.mono {table after : SymbolTable} {place : Option Location}
    {source : String} {expr : Expr} (lasts : table.Lasts after)
    (reads : table.Reads place source expr) : after.Reads place source expr := by
  obtain ⟨tree, lexes, ids, found, means⟩ := reads
  exact ⟨tree, lexes, ids, found.imp fun _ _ isFound => lasts.find? isFound, means⟩

/-- A formula that may be absent. -/
def Item.present (source : String) : List String := if source.isEmpty then [] else [source]

/-- The formulas of an item of a kind apart from its repeat count, in the order of their reading. -/
def Item.formulas (item : Item) : ItemKind → List String
  | .label | .bytes | .string | .org | .ret | .nop => []
  | .data => item.data.getD []
  | .leb128 => [item.leb128]
  | .reserve => [item.reserve]
  | .incbin => present item.start ++ present item.maxLength
  | .align => present item.maxSkip
  | .jmp => [item.jmp]
  | .jcc => [item.jcc]
  | .call => [item.call]
  | .movImm => [(item.movImm.getD {}).value]

/-- The expression of a field among data. -/
def DataItem.expr? : DataItem → Option Expr
  | .bytes _ => none
  | .field inner => some inner.expr

/-- The expressions in a body. The boundary of an alignment and the start of padding are left out:
descriptions give them as numbers. -/
def Body.expressions : Body → List Expr
  | .data items => items.filterMap DataItem.expr?
  | .leb128 integer => [integer.number]
  | .reserve count _ => [count]
  | .binary part => part.start.toList ++ part.maxLength.toList
  | .align padding => padding.maxSkip.toList
  | .org _ => []
  | .instruction encoded => encoded.operands.map fun operand => operand.field.expr
  | .branch jump => [jump.target.expr]

/-- A move has its value as its only operand. -/
theorem Machine.operands_mov {register : Machine.Register} {value : Field}
    {instruction : Instruction} (encodes : Machine.mov register value = .ok instruction) :
    instruction.operands.map (fun operand => operand.field.expr) = [value.expr] := by
  obtain ⟨_, _, finished⟩ := exists_of_bind_ok encodes
  cases finished
  rfl

/-- Padding instructions have no operand. -/
theorem Machine.operands_nop {length : Int} {instruction : Instruction}
    (encodes : Machine.nop length = .ok instruction) : instruction.operands = [] := by
  unfold Machine.nop at encodes
  split at encodes
  · cases encodes
  · split at encodes <;> cases encodes
    rfl

/-! ### Steps of building -/

namespace Building

variable {α β : Type} {place : Option Location}

/-- Two steps succeed if the second one does with what the first one leaves. -/
theorem bind_eq_ok_iff {step : Building α} {next : α → Building β} {table after : SymbolTable}
    {last : β} :
    (step >>= next) table = (.ok last, after) ↔
      ∃ value between, step table = (.ok value, between) ∧
        next value between = (.ok last, after) := by
  have stepwise : (step >>= next) table =
      match step table with
      | (.ok value, between) => next value between
      | (.error error, between) => (.error error, between) := by
    simp only [bind, ExceptT.bind, ExceptT.mk, StateT.bind, ExceptT.bindCont]
    cases step table with
    | mk outcome between => cases outcome <;> rfl
  rw [stepwise]
  cases step table with | mk outcome between =>
  cases outcome with
  | error error =>
    constructor
    · rintro ⟨⟩
    · rintro ⟨_, _, ⟨⟩, _⟩
  | ok value =>
    constructor
    · intro runs
      exact ⟨value, between, rfl, runs⟩
    · rintro ⟨_, _, ⟨⟩, runs⟩
      exact runs

/-- A step that succeeds keeps the symbols there are and reads formulas, and the expressions they
stand for go into its result. -/
def Reads (place : Option Location) (sources : List String) (step : Building α)
    (result : List Expr → α → Prop) : Prop :=
  ∀ table value after, step table = (.ok value, after) → table.Lasts after ∧
    ∃ exprs, List.Forall₂ (after.Reads place) sources exprs ∧ result exprs value

namespace Reads

theorem pure {value : α} {result : List Expr → α → Prop} (holds : result [] value) :
    Reads place [] (Pure.pure value) result := by
  rintro table _ _ ⟨⟩
  exact ⟨.refl table, [], .nil, holds⟩

theorem throw {error : BuildError} {result : List Expr → α → Prop} :
    Reads place sources (MonadExcept.throw error) result := by
  rintro table value after ⟨⟩

/-- What one step reads stands before what the next one reads. -/
theorem bind {first second : List String} {step : Building α} {next : α → Building β}
    {middle : List Expr → α → Prop} {result : List Expr → β → Prop}
    (begins : Reads place first step middle)
    (continues : ∀ value exprs, middle exprs value →
      Reads place second (next value) fun more => result (exprs ++ more)) :
    Reads place (first ++ second) (step >>= next) result := by
  intro table last after succeeded
  obtain ⟨value, between, ran, runs⟩ := bind_eq_ok_iff.mp succeeded
  obtain ⟨lasts, exprs, reads, holds⟩ := begins _ _ _ ran
  obtain ⟨stays, more, readsMore, result⟩ := continues value exprs holds _ _ _ runs
  refine ⟨lasts.trans stays, exprs ++ more, ?_, result⟩
  exact List.rel_append (reads.imp fun _ _ => .mono stays) readsMore

/-- A step that reads nothing comes before others. -/
theorem bind_silent {step : Building α} {next : α → Building β} {result : List Expr → β → Prop}
    (silent : Reads place [] step fun exprs _ => exprs = [])
    (continues : ∀ value, Reads place sources (next value) result) :
    Reads place sources (step >>= next) result :=
  silent.bind fun value _ none => none ▸ continues value

/-- Finishing a result reads nothing more. -/
theorem bind_pure {step : Building α} {finish : α → β} {middle : List Expr → α → Prop}
    {result : List Expr → β → Prop} (begins : Reads place sources step middle)
    (holds : ∀ value exprs, middle exprs value → result exprs (finish value)) :
    Reads place sources (step >>= fun value => Pure.pure (finish value)) result := by
  rw [← List.append_nil sources]
  exact begins.bind fun value exprs isMiddle => .pure (by simpa using holds value exprs isMiddle)

/-- What is said of a result may be weakened. -/
theorem imp {step : Building α} {strong weak : List Expr → α → Prop}
    (reads : Reads place sources step strong)
    (weaken : ∀ exprs value, strong exprs value → weak exprs value) :
    Reads place sources step weak := by
  intro table value after succeeded
  obtain ⟨lasts, exprs, stand, holds⟩ := reads _ _ _ succeeded
  exact ⟨lasts, exprs, stand, weaken _ _ holds⟩

end Reads

/-- Reading one formula. -/
theorem reads_expr (source : String) (place : Option Location) :
    Reads place [source] (expr source place) fun exprs value => exprs = [value] := by
  intro table value after succeeded
  unfold expr at succeeded
  split at succeeded
  · next next result evaluated =>
    cases succeeded
    rw [Formula.eval_eq_ok_iff, Formula.ofText, Formula.gives_ofTokens_iff] at evaluated
    obtain ⟨tree, derives, ids, asked, means⟩ := evaluated
    obtain ⟨lasts, found⟩ := SymbolTable.forall₂_requests asked
    rw [← derives, ← tree.names_formula] at found
    refine ⟨lasts, [value], .cons ⟨tree, ?_, ids, found, means⟩ .nil, rfl⟩
    rw [Token.lexes_iff, ← Token.ofText_eq, derives]
  · cases succeeded

/-- Reading a formula that may be absent. -/
theorem reads_optionalExpr (source : String) (place : Option Location) :
    Reads place (Item.present source) (optionalExpr source place)
      fun exprs value => exprs = value.toList := by
  unfold Item.present optionalExpr
  split
  · exact .pure rfl
  · exact (reads_expr source place).bind_pure fun value exprs same => same

/-- Encoding reads no formula. -/
theorem reads_encoded (result : Except Error α) :
    Reads place [] (encoded result) fun exprs value => exprs = [] ∧ result = .ok value := by
  unfold encoded
  split
  · exact .pure ⟨rfl, rfl⟩
  · exact .throw

/-- Choosing a form reads no formula. -/
theorem reads_form (name : String) : Reads place [] (form name) fun exprs _ => exprs = [] := by
  unfold form
  dsimp only
  split
  · exact .pure rfl
  · split
    · exact .pure rfl
    · split
      · exact .pure rfl
      · exact .throw

/-- Taking bytes reads no formula. -/
theorem reads_rawBytes (values : List Int) :
    Reads place [] (rawBytes values) fun exprs _ => exprs = [] := by
  induction values with
  | nil => exact .pure rfl
  | cons first rest ih =>
    unfold rawBytes
    split
    · exact .throw
    · exact ih.bind_pure fun _ _ same => same

/-- Data reads its formulas in order. -/
theorem reads_dataItems (item : Item) (sources : List String) :
    Reads place sources (dataItems item place sources)
      fun exprs items => exprs = items.filterMap DataItem.expr? := by
  induction sources with
  | nil => exact .pure rfl
  | cons source rest ih =>
    refine (reads_expr source place).bind fun value exprs same => ?_
    refine ih.bind_pure fun items more others => ?_
    rw [same, others]
    rfl

/-- A part of a file reads its start and its length. -/
theorem reads_binary (read : FileReader) (directory : String) (item : Item) :
    Reads place (Item.present item.start ++ Item.present item.maxLength)
      (binary read directory item place)
      fun exprs part => exprs = part.start.toList ++ part.maxLength.toList := by
  unfold binary
  split
  · exact .throw
  · refine (reads_optionalExpr item.start place).bind fun start exprs same => ?_
    refine (reads_optionalExpr item.maxLength place).bind_pure fun maxLength more others => ?_
    rw [same, others]

/-- A branch reads its target. -/
theorem reads_branch (item : Item) (source : String) (encode : Expr → Form → Building Branch)
    (encodes : ∀ target form,
      Reads place [] (encode target form) fun exprs jump =>
        exprs = [] ∧ jump.target.expr = target) :
    Reads place [source] (branch item place source encode)
      fun exprs described => exprs = described.expressions := by
  refine (reads_form item.form).bind_silent fun form => ?_
  refine (reads_expr source place).bind fun target exprs same => ?_
  refine (encodes target form).bind_pure fun jump more aims => ?_
  rw [same, aims.1, ← aims.2]
  rfl

/-- A body has the expressions that its formulas stand for. -/
theorem reads_body (read : FileReader) (directory : String) (item : Item) (kind : ItemKind) :
    Reads place (item.formulas kind) (body read directory item place kind)
      fun exprs described => exprs = described.expressions := by
  cases kind with
  | label | string | org | ret => exact .pure rfl
  | bytes => exact (reads_rawBytes _).bind_pure fun _ _ same => same
  | data => exact (reads_dataItems item _).bind_pure fun _ _ same => same
  | leb128 | reserve => exact (reads_expr _ place).bind_pure fun _ _ same => same
  | incbin => exact (reads_binary read directory item).bind_pure fun _ _ same => same
  | align => exact (reads_optionalExpr _ place).bind_pure fun _ _ same => same
  | jmp => exact reads_branch item item.jmp _ fun _ _ => .pure ⟨rfl, rfl⟩
  | jcc =>
    refine reads_branch item item.jcc _ fun target form => ?_
    exact (reads_encoded _).bind_pure fun _ _ encodes => ⟨encodes.1, rfl⟩
  | call =>
    refine reads_branch item item.call _ fun target form => ?_
    split
    · exact .throw
    · exact .pure ⟨rfl, rfl⟩
  | nop =>
    refine (reads_encoded _).bind_pure fun instruction exprs encodes => ?_
    rw [encodes.1, Body.expressions, Machine.operands_nop encodes.2]
    rfl
  | movImm =>
    refine ((reads_encoded _).imp fun _ _ encodes => encodes.1).bind_silent fun register => ?_
    refine (reads_expr _ place).bind fun value exprs same => ?_
    refine (reads_encoded _).bind_pure fun instruction more encodes => ?_
    rw [same, encodes.1, Body.expressions, Machine.operands_mov encodes.2]
    rfl

/-- The expressions of a chunk and its repeat count are what the formulas of its item stand for. -/
theorem formulas_of_chunk {read : FileReader} {directory : String} {item : Item} {kind : ItemKind}
    {table after : SymbolTable} {described : Body} {repeats : Option Expr}
    (builds : chunk read directory item place kind table = (.ok (described, repeats), after)) :
    table.Lasts after ∧
      List.Forall₂ (after.Reads place) (item.formulas kind) described.expressions ∧
      List.Forall₂ (after.Reads place) (Item.present item.times) repeats.toList := by
  unfold chunk at builds
  split at builds
  · cases builds
  · next body middle bodyBuilt =>
    split at builds
    · cases builds
    · next count last counted =>
      cases builds
      obtain ⟨lasts, exprs, stand, rfl⟩ := reads_body read directory item kind _ _ _ bodyBuilt
      obtain ⟨stays, counts, standCounts, rfl⟩ := reads_optionalExpr item.times place _ _ _ counted
      exact ⟨lasts.trans stays, stand.imp fun _ _ => .mono stays, standCounts⟩

end Building

end Assembler
