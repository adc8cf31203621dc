import Assembler.Proofs.Layout.Quantities
import Assembler.Proofs.Linking.Settling
import Assembler.Proofs.Relayout.Repetition

/-!
# What a second layout reads

In a section that was laid out, the fields of data, operands and branches are settled for good. What
a second layout still reads of the symbols are repeat counts, quantities and the numbers of integers
(`Chunk.reads`). Over later symbols that keep the expansions of these, the section has the layout
that it has (`layout_kept`).
-/

namespace Assembler

section

variable {early late : SymbolTable} {sectionId index : Nat}

/-- Data whose fields are settled stays as it is. -/
theorem settleItems_of_settled {offset : UInt64} {items : List DataItem}
    (done : ∀ field, .field field ∈ items → field.settled = true) :
    settleItems late sectionId index offset items = (items, none) := by
  induction items generalizing offset with
  | nil => rfl
  | cons item rest ih =>
    have later := fun offset => @ih offset fun field member =>
      done field (List.mem_cons_of_mem _ member)
    cases item with
    | bytes content => simp only [settleItems, later]
    | field inner =>
      rw [settleItems_cons (Field.settle_of_settled (done inner List.mem_cons_self) late _), later]

/-- Operands whose fields are settled stay as they are. -/
theorem settleOperands_of_settled {name : String} {number : Nat} {operands : List Operand}
    (done : ∀ operand ∈ operands, operand.field.settled = true) :
    settleOperands late sectionId index name number operands = (operands, none) := by
  induction operands generalizing number with
  | nil => rfl
  | cons operand rest ih =>
    obtain ⟨first, others⟩ := List.forall_mem_cons.mp done
    rw [settleOperands_cons (Field.settle_of_settled first late _), ih others]

/-- A branch that settling leaves alone has a settled target, and keeps it. -/
theorem Branch.settle_fixed {jump : Branch}
    (fixed : jump.settle early sectionId index = (jump, none)) :
    jump.settle late sectionId index = (jump, none) := by
  cases settles : jump.target.settle early ⟨sectionId, index, 0⟩ with
  | error halt => simp [Branch.settle, settles] at fixed
  | ok settled =>
    obtain ⟨done, _⟩ := Field.settle_eq settles
    rw [Branch.settle_of_target settles, Prod.mk.injEq] at fixed
    obtain ⟨same, _⟩ := fixed
    have target := congrArg Branch.target same
    dsimp only at target
    have settledTarget : jump.target.settled = true := by
      rw [← target]
      exact done
    rw [Branch.settle_of_target (Field.settle_of_settled settledTarget late _), ← target, same]

/-- An integer is settled from its number, which has to expand to positions. -/
theorem VariableInteger.settle_kept {integer settled : VariableInteger} {line : Int}
    (settles : integer.settle early sectionId index line = (settled, none))
    (keeps : early.Keeps late integer.number) :
    integer.settle late sectionId index line = (settled, none) := by
  unfold VariableInteger.settle at settles ⊢
  dsimp only at settles ⊢
  split at settles
  · cases settles
  · next value resolved =>
    rw [Prod.mk.injEq, Option.map_eq_none_iff] at settles
    obtain ⟨rfl, unsymbolic⟩ := settles
    obtain ⟨expanded, expands, splits⟩ := exists_of_bind_ok resolved
    obtain ⟨⟨rest, symbol⟩, parts, same⟩ := exists_of_bind_ok splits
    have places : ∀ term ∈ expanded.terms, term.isPlace = true := by
      cases same
      cases unsymbolic
      rw [Field.split_eq, Field.foldlM_splitTerm_eq_ok_iff] at parts
      simpa using parts.2
    have again : ({ expr := integer.number, signed := integer.signed, line } : Field).settle late
        ⟨sectionId, index, 0⟩ = .ok value := by
      rw [← resolved, Field.settle, Field.settle, expands, keeps expanded expands places]
    simp only [again, unsymbolic, Option.map_none]

/-- A body that settling leaves alone stays as it is over symbols that keep its number. -/
theorem Body.settle_kept {body : Body} {line : Int}
    (fixed : body.settle early sectionId index line = (body, none))
    (keeps : ∀ expr ∈ body.pending, early.Keeps late expr) :
    body.settle late sectionId index line = (body, none) := by
  cases body with
  | data items =>
    simp only [Body.settle, Prod.mk.injEq, Body.data.injEq] at fixed
    have done : ∀ field, .field field ∈ items → field.settled = true := by
      intro field member
      rw [← fixed.1] at member
      obtain ⟨_, _, _, settles⟩ := (settleItems_done fixed.2).2 field member
      exact (Field.settle_eq settles).1
    simp only [Body.settle, settleItems_of_settled done]
  | leb128 integer =>
    simp only [Body.settle, Prod.mk.injEq, Body.leb128.injEq] at fixed
    simp only [Body.settle, VariableInteger.settle_kept (Prod.ext fixed.1 fixed.2)
      (keeps _ (List.mem_singleton_self _))]
  | instruction code =>
    simp only [Body.settle, Prod.mk.injEq, Body.instruction.injEq] at fixed
    have operands := congrArg Instruction.operands fixed.1
    have done : ∀ operand ∈ code.operands, operand.field.settled = true := by
      intro operand member
      rw [← operands] at member
      obtain ⟨_, _, _, settles⟩ := (settleOperands_done fixed.2).2 operand member
      exact (Field.settle_eq settles).1
    simp only [Body.settle, settleOperands_of_settled done]
  | branch jump =>
    simp only [Body.settle, Prod.mk.injEq, Body.branch.injEq] at fixed
    simp only [Body.settle, Branch.settle_fixed (Prod.ext fixed.1 fixed.2)]
  | reserve | binary | align | org => rfl

/-- A chunk that preparing leaves alone, up to its slot, is prepared alike over symbols that keep
what it reads. -/
theorem Chunk.prepare_kept {chunk changed : Chunk} {spans : List Span} {slot : Slot}
    (prepares : chunk.prepare early sectionId index = (changed, .ok spans))
    (same : chunk = { changed with slot })
    (keeps : ∀ expr ∈ chunk.reads, early.Keeps late expr) :
    chunk.prepare late sectionId index = (changed, .ok spans) := by
  obtain ⟨body, copies, countSpan, measure, settles, counts, measures, changedTo, rfl⟩ :=
    prepare_ok prepares
  have fixed : body = chunk.body := by
    by_cases part : chunk.body.kind = .binary
    · obtain ⟨given, isPart⟩ := Body.eq_binary part
      rw [isPart, Body.settle, Prod.mk.injEq] at settles
      rw [← settles.1, isPart]
    · rw [← Body.kind_of_settle settles] at part
      have measured := (Body.measured_of_ok measures).body_eq part
      have recorded := congrArg Chunk.body same
      rw [changedTo] at recorded
      exact measured.symm.trans recorded.symm
  subst fixed
  have settled := @Body.settle_kept early late _ _ _ _ settles fun expr member =>
    keeps expr (List.mem_append_right _ (List.mem_append_right _ member))
  have counted := @initialCopies_kept early late _ _ _ _ counts fun expr member =>
    keeps expr (List.mem_append_left _ (Option.mem_toList.mpr member))
  have measured := @Body.measure_kept early late _ _ _ _ _ measures fun expr member =>
    keeps expr (List.mem_append_right _ (List.mem_append_left _ member))
  rw [changedTo]
  simp only [Chunk.prepare, settled, counted, measured]

/-- A section that is its own layout is so over symbols that keep what it reads. -/
theorem layout_kept {sect : Section} {maxPasses : Int} {id : Nat} {layout : Layout}
    (lays : sect.layout early maxPasses id = .ok layout) (silent : layout.error = none)
    (same : layout.sect = sect)
    (keeps : ∀ chunk ∈ sect.chunks, ∀ expr ∈ chunk.reads, early.Keeps late expr) :
    sect.layout late maxPasses id = .ok layout := by
  obtain ⟨prepared, prepares, rfl⟩ := layout_eq_ok_iff.mp lays
  have unproblematic := problems_of_settle (recorded_error_eq_none_iff.mp silent)
  refine layout_eq_ok_iff.mpr ⟨prepared, ?_, rfl⟩
  rw [← prepares]
  refine prepareAll_congr rfl fun place chunk other chunkAt otherAt => ?_
  obtain rfl := Option.some.inj (chunkAt.symm.trans otherAt)
  rw [Nat.zero_add]
  obtain ⟨changed, spans, result⟩ := prepare_of_clean prepares unproblematic chunkAt
  have recordedAt := chunkAt
  rw [← same] at recordedAt
  obtain ⟨before, slot, beforeAt, _, recorded⟩ := Section.getElem?_recorded recordedAt
  rw [prepareAll_getElem? prepares, chunkAt, Option.map_some, Option.some.injEq, result] at beforeAt
  subst beforeAt
  rw [result]
  exact Chunk.prepare_kept result recorded (keeps chunk (List.mem_of_getElem? chunkAt))

end

end Assembler
