import Assembler.Proofs.Emission.Sites

/-!
# Settling again

A settled field stays as it is, even when symbols have got their meanings since. A second settling
over other symbols therefore gives what they would have given at once exactly if every field that
the first one settled comes out alike over both (`Body.settle_again`, `Body.lasts_of_settle`). An
integer in groups of seven bits is settled from its number each time, and padding, reserved bytes
and parts of given bytes read their expressions anew.
-/

namespace Assembler

variable {name : String} {number : Nat} {jump : Branch}

variable {field settled : Field} {table : SymbolTable} {offset : UInt64}

namespace Field

/-- A settled field stays as it is. -/
theorem settle_of_settled (done : field.settled = true) (table : SymbolTable)
    (site : Location) : field.settle table site = .ok field := by
  rw [settle, if_pos done]
  rfl

/-- Settling a field settles it, and changes its expression, its symbol and what it counts from
only. -/
theorem settle_eq {site : Location} (success : field.settle table site = .ok settled) :
    settled.settled = true ∧ DataItem.size (.field settled) = DataItem.size (.field field) ∧
      (field.settled = false → settled =
        { field with
          expr := settled.expr
          symbol := settled.symbol
          origin := if field.ipRelative && field.origin.isNone then some site else field.origin
          settled := true }) := by
  cases done : field.settled with
  | true =>
    rw [settle_of_settled done, Except.ok.injEq] at success
    subst success
    exact ⟨done, rfl, by simp⟩
  | false =>
    unfold settle at success
    rw [if_neg (by simp [done])] at success
    obtain ⟨expanded, _, splits⟩ := exists_of_bind_ok success
    obtain ⟨⟨expr, symbol⟩, _, same⟩ := exists_of_bind_ok splits
    cases same
    exact ⟨rfl, rfl, fun _ => rfl⟩

/-- What is left of a field after settling it; one that cannot be settled stays as it is. -/
def afterSettle (field : Field) (table : SymbolTable) (site : Location) : Field :=
  (field.settle table site).toOption.getD field

/-- A settled field is left only if it was settled. -/
theorem settle_of_afterSettle {site : Location} (left : field.afterSettle table site = settled)
    (done : settled.settled = true) :
    field.settle table site = .ok settled := by
  unfold afterSettle at left
  cases settles : field.settle table site with
  | error halt =>
    have unchanged : field = settled := by simpa [settles, Except.toOption] using left
    rw [unchanged, settle_of_settled done] at settles
    cases settles
  | ok other => simpa [settles, Except.toOption] using left

end Field

section

variable (early late : SymbolTable) (sectionId index : Nat)

/-- The fields that are settled in order: those before the first that cannot be. -/
def settledFirst (table : SymbolTable) (entries : List (UInt64 × Field)) : List (UInt64 × Field) :=
  entries.takeWhile fun entry => (entry.2.settle table ⟨sectionId, index, entry.1⟩).isOk

/-- Every field that is settled in order over the early symbols comes out alike over the late ones.
-/
def LastAll (entries : List (UInt64 × Field)) : Prop :=
  ∀ entry ∈ settledFirst sectionId index early entries,
    entry.2.settle late ⟨sectionId, index, entry.1⟩ =
      entry.2.settle early ⟨sectionId, index, entry.1⟩
deriving Decidable

/-- The fields of a body in the order in which they are settled, with their offsets. -/
def Body.settling : Body → List (UInt64 × Field)
  | .data items => DataItem.fieldsAt 0 items
  | .instruction code => code.operands.map fun operand => (operand.offset, operand.field)
  | .branch jump => [(0, jump.target)]
  | .leb128 _ | .reserve .. | .binary _ | .align _ | .org _ => []

/-- Every field of a body that is settled over the early symbols comes out alike over the late ones.
-/
def Body.Lasts (body : Body) : Prop := LastAll early late sectionId index body.settling
deriving Decidable

end

section

variable {early late : SymbolTable} {sectionId index : Nat}

/-- Fields after one that cannot be settled do not count. -/
theorem lastAll_cons_error {rest : List (UInt64 × Field)} {halt : Halt}
    (fails : field.settle early ⟨sectionId, index, offset⟩ = .error halt) :
    LastAll early late sectionId index ((offset, field) :: rest) := by
  intro entry member
  rw [settledFirst, List.takeWhile_cons_of_neg (by simp [fails, Except.isOk, Except.toBool])]
    at member
  cases member

/-- A field that is settled has to come out alike, and so do those behind it. -/
theorem lastAll_cons_ok {rest : List (UInt64 × Field)}
    (settles : field.settle early ⟨sectionId, index, offset⟩ = .ok settled) :
    LastAll early late sectionId index ((offset, field) :: rest) ↔
      field.settle late ⟨sectionId, index, offset⟩ = .ok settled ∧
        LastAll early late sectionId index rest := by
  unfold LastAll
  rw [settledFirst, List.takeWhile_cons_of_pos (by simp [settles, Except.isOk, Except.toBool])]
  simp only [List.forall_mem_cons, settles]
  rfl

/-- What is left of the first field of data after settling it. -/
theorem head_settleItems (table : SymbolTable) (offset : UInt64) (inner : Field)
    (rest : List DataItem) :
    (settleItems table sectionId index offset (.field inner :: rest)).1.head? =
      some (.field (inner.afterSettle table ⟨sectionId, index, offset⟩)) := by
  unfold Field.afterSettle
  cases settles : inner.settle table ⟨sectionId, index, offset⟩ <;>
    simp [settleItems, settles, Except.toOption]

/-- Data that was settled over the early symbols settles over the late ones like the data itself. -/
theorem settleItems_again {items : List DataItem}
    (lasts : LastAll early late sectionId index (DataItem.fieldsAt offset items)) :
    settleItems late sectionId index offset (settleItems early sectionId index offset items).1 =
      settleItems late sectionId index offset items := by
  induction items generalizing offset with
  | nil => rfl
  | cons item rest ih =>
    cases item with
    | bytes content => simp only [settleItems, ih lasts]
    | field inner =>
      cases settles : inner.settle early ⟨sectionId, index, offset⟩ with
      | error halt => simp only [settleItems, settles]
      | ok settled =>
        obtain ⟨done, size, _⟩ := Field.settle_eq settles
        obtain ⟨alike, others⟩ := (lastAll_cons_ok settles).mp lasts
        rw [settleItems_cons settles, settleItems_cons (Field.settle_of_settled done late _),
          settleItems_cons alike, size, ih others]

/-- If data that is settled twice is what the late symbols make of it at once, its fields come out
alike. -/
theorem lastAll_of_settleItems {items : List DataItem}
    (same : (settleItems late sectionId index offset
        (settleItems early sectionId index offset items).1).1 =
      (settleItems late sectionId index offset items).1) :
    LastAll early late sectionId index (DataItem.fieldsAt offset items) := by
  induction items generalizing offset with
  | nil =>
    intro entry member
    cases member
  | cons item rest ih =>
    cases item with
    | bytes content =>
      simp only [settleItems, List.cons.injEq, true_and] at same
      exact ih same
    | field inner =>
      rw [DataItem.fieldsAt]
      cases settles : inner.settle early ⟨sectionId, index, offset⟩ with
      | error halt => exact lastAll_cons_error settles
      | ok settled =>
        obtain ⟨done, size, _⟩ := Field.settle_eq settles
        rw [settleItems_cons settles,
          settleItems_cons (Field.settle_of_settled done late _)] at same
        have alike : inner.settle late ⟨sectionId, index, offset⟩ = .ok settled := by
          refine Field.settle_of_afterSettle ?_ done
          have heads := congrArg List.head? same
          rw [head_settleItems, List.head?_cons, Option.some.injEq, DataItem.field.injEq] at heads
          exact heads.symm
        rw [settleItems_cons alike, size, List.cons.injEq] at same
        exact (lastAll_cons_ok settles).mpr ⟨alike, ih same.2⟩

/-- What is left of the first operand after settling it. -/
theorem head_settleOperands (table : SymbolTable) (name : String) (number : Nat) (operand : Operand)
    (rest : List Operand) :
    (settleOperands table sectionId index name number (operand :: rest)).1.head? =
      some { operand with
        field := operand.field.afterSettle table ⟨sectionId, index, operand.offset⟩ } := by
  unfold Field.afterSettle
  cases settles : operand.field.settle table ⟨sectionId, index, operand.offset⟩ <;>
    simp [settleOperands, settles, Except.toOption]

/-- Operands that were settled over the early symbols settle over the late ones like the operands
themselves. -/
theorem settleOperands_again {operands : List Operand}
    (lasts : LastAll early late sectionId index
      (operands.map fun operand => (operand.offset, operand.field))) :
    settleOperands late sectionId index name number
        (settleOperands early sectionId index name number operands).1 =
      settleOperands late sectionId index name number operands := by
  induction operands generalizing number with
  | nil => rfl
  | cons operand rest ih =>
    cases settles : operand.field.settle early ⟨sectionId, index, operand.offset⟩ with
    | error halt => simp only [settleOperands, settles]
    | ok settled =>
      obtain ⟨done, _⟩ := Field.settle_eq settles
      obtain ⟨alike, others⟩ := (lastAll_cons_ok settles).mp lasts
      rw [settleOperands_cons settles, settleOperands_cons (Field.settle_of_settled done late _),
        settleOperands_cons alike, ih others]

/-- If operands that are settled twice are what the late symbols make of them at once, they come out
alike. -/
theorem lastAll_of_settleOperands {operands : List Operand}
    (same : (settleOperands late sectionId index name number
        (settleOperands early sectionId index name number operands).1).1 =
      (settleOperands late sectionId index name number operands).1) :
    LastAll early late sectionId index
      (operands.map fun operand => (operand.offset, operand.field)) := by
  induction operands generalizing number with
  | nil =>
    intro entry member
    cases member
  | cons operand rest ih =>
    rw [List.map_cons]
    cases settles : operand.field.settle early ⟨sectionId, index, operand.offset⟩ with
    | error halt => exact lastAll_cons_error settles
    | ok settled =>
      obtain ⟨done, _⟩ := Field.settle_eq settles
      rw [settleOperands_cons settles,
        settleOperands_cons (Field.settle_of_settled done late _)] at same
      have alike : operand.field.settle late ⟨sectionId, index, operand.offset⟩ = .ok settled := by
        refine Field.settle_of_afterSettle ?_ done
        have heads := congrArg List.head? same
        rw [head_settleOperands, List.head?_cons, Option.some.injEq, Operand.mk.injEq] at heads
        exact heads.2.symm
      rw [settleOperands_cons alike, List.cons.injEq] at same
      exact (lastAll_cons_ok settles).mpr ⟨alike, ih same.2⟩

/-- A branch whose target is settled counts from its own start. -/
theorem Branch.settle_of_target
    (settles : jump.target.settle table ⟨sectionId, index, 0⟩ = .ok settled) :
    jump.settle table sectionId index =
      ({ jump with
          target :=
            { settled with origin := some ⟨sectionId, index, 0⟩, signed := true, jump := true } },
        none) := by
  simp only [Branch.settle, settles]

/-- A branch that was settled over the early symbols settles over the late ones like the branch
itself. -/
theorem Branch.settle_again
    (lasts : LastAll early late sectionId index [(0, jump.target)]) :
    (jump.settle early sectionId index).1.settle late sectionId index =
      jump.settle late sectionId index := by
  cases settles : jump.target.settle early ⟨sectionId, index, 0⟩ with
  | error halt => simp only [Branch.settle, settles]
  | ok settled =>
    obtain ⟨done, _⟩ := Field.settle_eq settles
    obtain ⟨alike, _⟩ := (lastAll_cons_ok settles).mp lasts
    rw [Branch.settle_of_target settles, Branch.settle_of_target alike,
      Branch.settle_of_target (Field.settle_of_settled (by exact done) late _)]

/-- If a branch that is settled twice is what the late symbols make of it at once, its target comes
out alike. -/
theorem Branch.lastAll_of_settle
    (same : ((jump.settle early sectionId index).1.settle late sectionId index).1 =
      (jump.settle late sectionId index).1) :
    LastAll early late sectionId index [(0, jump.target)] := by
  cases settles : jump.target.settle early ⟨sectionId, index, 0⟩ with
  | error halt => exact lastAll_cons_error settles
  | ok settled =>
    obtain ⟨done, _, shape⟩ := Field.settle_eq settles
    refine (lastAll_cons_ok settles).mpr ⟨?_, by intro _ member; cases member⟩
    cases fresh : jump.target.settled with
    | true =>
      rw [Field.settle_of_settled fresh] at settles ⊢
      exact settles
    | false =>
      rw [Branch.settle_of_target settles,
        Branch.settle_of_target (Field.settle_of_settled (by exact done) late _)] at same
      cases alike : jump.target.settle late ⟨sectionId, index, 0⟩ with
      | error halt =>
        -- A target that the late symbols cannot settle would have stayed unsettled.
        have unsettled := congrArg (fun branch => branch.target.settled) same
        simp only [Branch.settle, alike, fresh, done] at unsettled
        cases unsettled
      | ok other =>
        rw [Branch.settle_of_target alike] at same
        have exprs := congrArg (fun branch => branch.target.expr) same
        have symbols := congrArg (fun branch => branch.target.symbol) same
        dsimp only at exprs symbols
        have otherShape := (Field.settle_eq alike).2.2 fresh
        rw [← exprs, ← symbols] at otherShape
        rw [otherShape, ← shape fresh]

/-- An integer in groups of seven bits is settled from its number each time. -/
theorem VariableInteger.settle_again (integer : VariableInteger) (line : Int) :
    (integer.settle early sectionId index line).1.settle late sectionId index line =
      integer.settle late sectionId index line := by
  have same : ∃ value, (integer.settle early sectionId index line).1 = { integer with value } := by
    unfold VariableInteger.settle
    dsimp only
    split
    · exact ⟨_, rfl⟩
    · exact ⟨_, rfl⟩
  obtain ⟨value, changed⟩ := same
  rw [changed]
  rfl

/-- A body that was settled over the early symbols settles over the late ones like the body itself.
-/
theorem Body.settle_again {body : Body} (lasts : body.Lasts early late sectionId index)
    (line : Int) :
    (body.settle early sectionId index line).1.settle late sectionId index line =
      body.settle late sectionId index line := by
  cases body with
  | data items => simp only [Body.settle, settleItems_again lasts]
  | leb128 integer => simp only [Body.settle, VariableInteger.settle_again]
  | instruction code => simp only [Body.settle, settleOperands_again lasts]
  | branch jump => simp only [Body.settle, Branch.settle_again lasts]
  | reserve | binary | align | org => rfl

/-- If a body that is settled twice is what the late symbols make of it at once, its fields come out
alike. -/
theorem Body.lasts_of_settle {body : Body} {line : Int}
    (same : ((body.settle early sectionId index line).1.settle late sectionId index line).1 =
      (body.settle late sectionId index line).1) :
    body.Lasts early late sectionId index := by
  cases body with
  | data items =>
    simp only [Body.settle, Body.data.injEq] at same
    exact lastAll_of_settleItems same
  | instruction code =>
    simp only [Body.settle, Body.instruction.injEq, Instruction.mk.injEq, true_and] at same
    exact lastAll_of_settleOperands same
  | branch jump =>
    simp only [Body.settle, Body.branch.injEq] at same
    exact Branch.lastAll_of_settle same
  | leb128 | reserve | binary | align | org =>
    intro entry member
    cases member

end

end Assembler
