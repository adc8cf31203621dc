import Assembler.Proofs.Layout.Preparation

/-!
# What measures say

A measure counts the bytes of a body in words, and checks what emission relies on: operands lie
inside their encoding, a part lies inside the bytes that it is taken from, and the sequences of code
filling have the lengths that they stand for. The exact counts beside them are not bounded.
-/

namespace Assembler

variable {offset : UInt64} {items : List DataItem} {name : String} {number : Nat}
  {operands : List Operand} {halt : Halt}

variable {line : Int} {body : Body}

/-- Both parts of a computation that succeeds have succeeded. -/
theorem exists_of_bind_ok {ε α β : Type} {first : Except ε α} {next : α → Except ε β} {result : β}
    (success : first >>= next = .ok result) :
    ∃ value, first = .ok value ∧ next value = .ok result := by
  cases first with
  | error error => cases success
  | ok value => exact ⟨value, rfl, success⟩

/-- The number of bytes of an item, which need not be a word. -/
def DataItem.exactSize : DataItem → Nat
  | .bytes list => list.length
  | .field inner => (inner.width / 8).toNat

/-- The size of an item is its exact size, as a word. -/
theorem DataItem.size_eq (item : DataItem) : item.size = UInt64.ofNat item.exactSize := by
  cases item with
  | bytes bytes => rfl
  | field field => exact (UInt64.ofNat_toNat).symm

/-- The offset behind an item, unless it wraps. -/
theorem DataItem.toNat_add_size {item : DataItem}
    (bounded : offset.toNat + item.exactSize < 2 ^ 64) :
    (offset + item.size).toNat = offset.toNat + item.exactSize := by
  have small : item.exactSize < 2 ^ 64 := by omega
  rw [DataItem.size_eq, UInt64.toNat_add, UInt64.toNat_ofNat_of_lt' small]
  exact Nat.mod_eq_of_lt bounded

/-- Data is measured as the word that its items add up to. -/
theorem measureItems_ok {length : UInt64}
    (measured : measureItems items = .ok length) :
    length = UInt64.ofNat (items.map DataItem.exactSize).sum := by
  induction items generalizing length with
  | nil =>
    cases measured
    rfl
  | cons item rest ih =>
    have counts : ∃ others, measureItems rest = .ok others ∧ length = item.size + others := by
      have sum :
          (do return item.size + (← measureItems rest)) = (.ok length : Except Halt UInt64) := by
        cases item with
        | bytes list => exact measured
        | field inner =>
          simp only [measureItems] at measured
          split at measured
          · cases measured
          · exact measured
      cases others : measureItems rest with
      | error halt => simp [others, bind, Except.bind] at sum
      | ok size =>
        simp only [others, bind, Except.bind, pure, Except.pure, Except.ok.injEq] at sum
        exact ⟨size, rfl, sum.symm⟩
    obtain ⟨others, found, rfl⟩ := counts
    rw [ih found, item.size_eq, List.map_cons, List.sum_cons, UInt64.ofNat_add]

/-- Operands pass their check if each of them has whole bytes and a word for its end that is inside
the encoding. -/
theorem checkOperands_eq_none_iff {size : Nat} :
    checkOperands name size number operands = none ↔ ∀ operand ∈ operands,
      operand.field.width ≠ 0 ∧ operand.field.width % 8 = 0 ∧
        (operand.offset + operand.field.width / 8).toNat ≤ size := by
  induction operands generalizing number with
  | nil => simp [checkOperands]
  | cons first rest ih =>
    rw [checkOperands, List.forall_mem_cons, ← @ih (number + 1)]
    split
    · next improper =>
      simp only [Bool.or_eq_true, decide_eq_true_eq] at improper
      refine ⟨nofun, fun passed => ?_⟩
      rcases improper with empty | partly
      · exact absurd empty passed.1.1
      · exact absurd passed.1.2.1 partly
    · next proper =>
      simp only [Bool.or_eq_true, decide_eq_true_eq, not_or, not_not] at proper
      split
      · next beyond => exact ⟨nofun, fun passed => absurd passed.1.2.2 (Nat.not_le.mpr beyond)⟩
      · next inside =>
        exact ⟨fun passed => ⟨⟨proper.1, proper.2, Nat.not_lt.mp inside⟩, passed⟩, And.right⟩

/-- The part of given bytes that is taken ends inside them. -/
theorem Binary.window_ok {part : Binary} {table : SymbolTable} {skip length : Nat}
    (window : part.window table = .ok (skip, length)) : length ≤ part.data.length - skip := by
  obtain ⟨start, _, chosen⟩ := exists_of_bind_ok window
  cases bound : part.maxLength with
  | none =>
    simp only [bound, pure, Except.pure, Except.ok.injEq, Prod.mk.injEq] at chosen
    omega
  | some expr =>
    simp only [bound] at chosen
    obtain ⟨limit, _, taken⟩ := exists_of_bind_ok chosen
    simp only [pure, Except.pure, Except.ok.injEq, Prod.mk.injEq] at taken
    omega

/-- The sequences of a code filling: every one but the first has the length that it stands for. -/
theorem checkCodeFill_none {first : List UInt8} {entries : List (List UInt8)}
    (checked : checkCodeFill (first :: entries) = none) :
    entries ≠ [] ∧ ∀ index, index < entries.length →
      ((first :: entries)[index + 1]?.getD []).length = index + 1 := by
  simp only [checkCodeFill] at checked
  split at checked
  · cases checked
  · next unfound =>
    constructor
    · intro empty
      simp [empty] at checked
    · intro index inRange
      have member : (entries[index], 1 + index) ∈ entries.zipIdx 1 :=
        List.mk_add_mem_zipIdx_iff_getElem?.mpr (List.getElem?_eq_getElem inRange)
      have agrees : entries[index].length = 1 + index := by
        simpa using List.find?_eq_none.mp unfound _ member
      rw [List.getElem?_cons_succ, List.getElem?_eq_getElem inRange, Option.getD_some, agrees,
        Nat.add_comm]

/-- An alignment has a rule only if its boundary and its limit are found, the boundary is positive
and its sequences pass their check. -/
theorem Align.setter_ok {padding : Align} {table : SymbolTable} {setter : Setter}
    (rule : padding.setter table = .ok setter) :
    ∃ boundary maxSkip, table.constantWord padding.boundary = .ok boundary ∧
      padding.skipLimit table = .ok maxSkip ∧ 0 < boundary.toInt ∧
      checkCodeFill padding.codeFill = none ∧ setter = .align boundary.toUInt64 maxSkip := by
  obtain ⟨boundary, wraps, checks⟩ := exists_of_bind_ok rule
  by_cases bad : (boundary ≤ 0 || !isPowerOfTwo boundary.toUInt64) = true
  · rw [if_pos bad] at checks
    cases checks
  · rw [if_neg bad] at checks
    obtain ⟨maxSkip, limited, chosen⟩ := exists_of_bind_ok checks
    simp only [Bool.or_eq_true, decide_eq_true_eq, not_or, Int64.not_le] at bad
    cases checked : checkCodeFill padding.codeFill with
    | none =>
      rw [checked] at chosen
      cases chosen
      exact ⟨boundary, maxSkip, Halt.eq_ok_of_wrap wraps, limited,
        Int64.lt_iff_toInt_lt.mp bad.1, rfl, rfl⟩
    | some error =>
      rw [checked] at chosen
      cases chosen

/-- Settling an expression for the first time resolves it, and does not change what it counts from
unless it counts from its own position. -/
theorem Field.settle_ok {field settled : Field} {table : SymbolTable} {site : Location}
    (fresh : field.settled = false) (success : field.settle table site = .ok settled) :
    settled.origin =
      if field.ipRelative && field.origin.isNone then some site else field.origin := by
  unfold Field.settle at success
  rw [if_neg (by simp [fresh])] at success
  obtain ⟨expanded, _, split⟩ := exists_of_bind_ok success
  obtain ⟨⟨expr, symbol⟩, _, same⟩ := exists_of_bind_ok split
  cases same
  rfl

/-- An integer that was settled is a constant or a distance: it has no symbol, and nothing is
subtracted from it. -/
theorem VariableInteger.settle_ok {integer settled : VariableInteger} {table : SymbolTable}
    {sectionId index : Nat}
    (success : integer.settle table sectionId index line = (settled, none)) :
    settled.value.symbol = none ∧ settled.value.origin = none := by
  unfold VariableInteger.settle at success
  dsimp only at success
  split at success
  · cases success
  · next value resolved =>
    rw [Prod.mk.injEq] at success
    obtain ⟨rfl, unsymbolic⟩ := success
    refine ⟨by simpa using unsymbolic, ?_⟩
    rw [Field.settle_ok rfl resolved]
    rfl

/-- The fields of an item. -/
def DataItem.fields : DataItem → List Field
  | .bytes _ => []
  | .field inner => [inner]

/-- The fields of items are the items that are fields. -/
theorem DataItem.mem_fields {items : List DataItem} {field : Field} :
    field ∈ items.flatMap DataItem.fields ↔ .field field ∈ items := by
  rw [List.mem_flatMap]
  constructor
  · rintro ⟨item, member, isField⟩
    cases item with
    | bytes content => cases isField
    | field inner => exact List.mem_singleton.mp isField ▸ member
  · exact fun member => ⟨_, member, List.mem_singleton_self _⟩

/-- Settling settles such a field of a body, with the line of its chunk. -/
def Body.Settles (line : Int) (field : Field) : Body → Prop
  | .data items => .field field ∈ items
  | .leb128 integer => field = { expr := integer.number, signed := integer.signed, line }
  | .instruction code => ∃ operand ∈ code.operands, operand.field = field
  | .branch jump => field = jump.target
  | .reserve .. | .binary _ | .align _ | .org _ => False

section

variable {table : SymbolTable} {sectionId index : Nat}

/-- A field that is settled is followed by the rest of the data. -/
theorem settleItems_cons {inner settled : Field}
    (settles : inner.settle table ⟨sectionId, index, offset⟩ = .ok settled) (rest : List DataItem) :
    settleItems table sectionId index offset (.field inner :: rest) =
      (.field settled ::
          (settleItems table sectionId index (offset + DataItem.size (.field inner)) rest).1,
        (settleItems table sectionId index (offset + DataItem.size (.field inner)) rest).2) := by
  simp only [settleItems, settles]

/-- An operand that is settled is followed by the other operands. -/
theorem settleOperands_cons {operand : Operand} {settled : Field}
    (settles : operand.field.settle table ⟨sectionId, index, operand.offset⟩ = .ok settled)
    (rest : List Operand) :
    settleOperands table sectionId index name number (operand :: rest) =
      ({ operand with field := settled } ::
          (settleOperands table sectionId index name (number + 1) rest).1,
        (settleOperands table sectionId index name (number + 1) rest).2) := by
  simp only [settleOperands, settles]

/-- Settling data stops at a field that cannot be settled. -/
theorem settleItems_halt
    (stopped : (settleItems table sectionId index offset items).2 = some halt) :
    ∃ field site, .field field ∈ items ∧ field.settle table site = .error halt := by
  induction items generalizing offset with
  | nil => cases stopped
  | cons item rest ih =>
    cases item with
    | bytes content =>
      obtain ⟨field, site, member, fails⟩ := ih stopped
      exact ⟨field, site, List.mem_cons_of_mem _ member, fails⟩
    | field inner =>
      cases settles : inner.settle table ⟨sectionId, index, offset⟩ with
      | error other =>
        simp only [settleItems, settles, Option.some.injEq] at stopped
        exact ⟨inner, _, List.mem_cons_self, stopped ▸ settles⟩
      | ok settled =>
        simp only [settleItems, settles] at stopped
        obtain ⟨field, site, member, fails⟩ := ih stopped
        exact ⟨field, site, List.mem_cons_of_mem _ member, fails⟩

/-- Settling operands stops at one that cannot be settled, and names it. -/
theorem settleOperands_halt
    (stopped : (settleOperands table sectionId index name number operands).2 = some halt) :
    ∃ operand ∈ operands, ∃ site cause place, operand.field.settle table site = .error cause ∧
      halt = cause.within (.inOperand name place) := by
  induction operands generalizing number with
  | nil => cases stopped
  | cons operand rest ih =>
    cases settles : operand.field.settle table ⟨sectionId, index, operand.offset⟩ with
    | error cause =>
      simp only [settleOperands, settles, Option.some.injEq] at stopped
      exact ⟨operand, List.mem_cons_self, _, cause, number, settles, stopped.symm⟩
    | ok settled =>
      simp only [settleOperands, settles] at stopped
      obtain ⟨other, member, fails⟩ := ih stopped
      exact ⟨other, List.mem_cons_of_mem _ member, fails⟩

/-- Settling a body stops at a field that cannot be settled, or at an integer with a symbol. -/
theorem Body.settle_halt
    (stopped : (body.settle table sectionId index line).2 = some halt) :
    (∃ field site cause context, body.Settles line field ∧
      field.settle table site = .error cause ∧
      (∀ error : Error, (context error).causes = error.causes) ∧ halt = cause.within context) ∨
    ∃ name, halt = .problem (.symbolicLeb128 name) := by
  have plain : ∀ cause : Halt, cause = cause.within id := fun cause => by cases cause <;> rfl
  cases body with
  | data items =>
    obtain ⟨field, site, member, fails⟩ := settleItems_halt stopped
    exact .inl ⟨field, site, halt, id, member, fails, fun _ => rfl, plain halt⟩
  | instruction code =>
    obtain ⟨operand, member, site, cause, place, fails, same⟩ := settleOperands_halt stopped
    exact .inl ⟨_, site, cause, .inOperand code.name place, ⟨operand, member, rfl⟩, fails,
      fun _ => rfl, same⟩
  | leb128 integer =>
    simp only [Body.settle, VariableInteger.settle] at stopped
    split at stopped
    case h_1 cause fails =>
      obtain rfl := Option.some.inj stopped
      exact .inl ⟨_, _, cause, id, rfl, fails, fun _ => rfl, plain cause⟩
    case h_2 =>
      obtain ⟨id, _, same⟩ := Option.map_eq_some_iff.mp stopped
      exact .inr ⟨_, same.symm⟩
  | branch jump =>
    simp only [Body.settle, Branch.settle] at stopped
    split at stopped
    case h_1 cause fails =>
      cases stopped
      exact .inl ⟨_, _, cause, .inTarget jump.name, rfl, fails, fun _ => rfl, rfl⟩
    case h_2 => cases stopped
  | reserve | binary | align | org => cases stopped

/-- Data that is settled to its end has settled each of its fields, and no others. -/
theorem settleItems_done
    (done : (settleItems table sectionId index offset items).2 = none) :
    (∀ field, .field field ∈ items → ∃ site value, field.settle table site = .ok value) ∧
      ∀ value, .field value ∈ (settleItems table sectionId index offset items).1 →
        ∃ field site, .field field ∈ items ∧ field.settle table site = .ok value := by
  induction items generalizing offset with
  | nil => simp [settleItems]
  | cons item rest ih =>
    cases item with
    | bytes content =>
      obtain ⟨sources, values⟩ := ih done
      simp only [List.mem_cons, reduceCtorEq, false_or, settleItems]
      exact ⟨sources, values⟩
    | field inner =>
      cases settles : inner.settle table ⟨sectionId, index, offset⟩ with
      | error halt => simp [settleItems, settles] at done
      | ok settled =>
        simp only [settleItems, settles] at done ⊢
        obtain ⟨sources, values⟩ := ih done
        constructor
        · intro field member
          rcases List.mem_cons.mp member with same | inRest
          · cases same
            exact ⟨_, settled, settles⟩
          · exact sources field inRest
        · intro value member
          rcases List.mem_cons.mp member with same | inRest
          · cases same
            exact ⟨inner, _, List.mem_cons_self, settles⟩
          · obtain ⟨field, site, among, settles⟩ := values value inRest
            exact ⟨field, site, List.mem_cons_of_mem _ among, settles⟩

/-- Operands that are settled to their end have settled each field, and no others. -/
theorem settleOperands_done
    (done : (settleOperands table sectionId index name number operands).2 = none) :
    (∀ operand ∈ operands, ∃ site value, operand.field.settle table site = .ok value) ∧
      ∀ settled ∈ (settleOperands table sectionId index name number operands).1,
        ∃ operand ∈ operands, ∃ site, operand.field.settle table site = .ok settled.field := by
  induction operands generalizing number with
  | nil => simp [settleOperands]
  | cons operand rest ih =>
    cases settles : operand.field.settle table ⟨sectionId, index, operand.offset⟩ with
    | error halt => simp [settleOperands, settles] at done
    | ok value =>
      simp only [settleOperands, settles] at done ⊢
      obtain ⟨sources, values⟩ := ih done
      refine ⟨List.forall_mem_cons.mpr ⟨⟨_, value, settles⟩, sources⟩,
        List.forall_mem_cons.mpr ⟨⟨operand, List.mem_cons_self, _, settles⟩, ?_⟩⟩
      intro settled member
      obtain ⟨source, among, site, settles⟩ := values settled member
      exact ⟨source, List.mem_cons_of_mem _ among, site, settles⟩

/-- A body that is settled to its end has settled each of its fields. -/
theorem Body.settle_done (done : (body.settle table sectionId index line).2 = none)
    {field : Field}
    (isField : body.Settles line field) : ∃ site value, field.settle table site = .ok value := by
  cases body with
  | data items => exact (settleItems_done done).1 field isField
  | instruction code =>
    obtain ⟨operand, member, rfl⟩ := isField
    exact (settleOperands_done done).1 operand member
  | leb128 integer =>
    cases isField
    simp only [Body.settle, VariableInteger.settle] at done
    split at done
    case h_1 => cases done
    case h_2 value settles => exact ⟨_, value, settles⟩
  | branch jump =>
    cases isField
    simp only [Body.settle, Branch.settle] at done
    split at done
    case h_1 => cases done
    case h_2 value settles => exact ⟨_, value, settles⟩
  | reserve | binary | align | org => cases isField

end

/-- Only an integer settles to an integer. -/
theorem Body.settle_leb128 {integer : VariableInteger} {table : SymbolTable}
    {sectionId index : Nat} {halt : Option Halt}
    (settled : body.settle table sectionId index line = (.leb128 integer, halt)) :
    ∃ source, body = .leb128 source ∧
      source.settle table sectionId index line = (integer, halt) := by
  cases body with
  | leb128 source =>
    simp only [Body.settle, Prod.mk.injEq, Body.leb128.injEq] at settled
    exact ⟨source, rfl, Prod.ext settled.1 settled.2⟩
  | data | reserve | binary | align | org | instruction | branch => simp [Body.settle] at settled

/-- Only a branch settles to a branch. -/
theorem Body.settle_branch {jump : Branch} {table : SymbolTable} {sectionId index : Nat}
    {halt : Option Halt} (settled : body.settle table sectionId index line = (.branch jump, halt)) :
    ∃ source, body = .branch source ∧ source.settle table sectionId index = (jump, halt) := by
  cases body with
  | branch source =>
    simp only [Body.settle, Prod.mk.injEq, Body.branch.injEq] at settled
    exact ⟨source, rfl, Prod.ext settled.1 settled.2⟩
  | data | leb128 | reserve | binary | align | org | instruction => simp [Body.settle] at settled

/-- Settling a branch changes its target only. -/
theorem Branch.settle_eq {source jump : Branch} {table : SymbolTable} {sectionId index : Nat}
    {halt : Option Halt} (settled : source.settle table sectionId index = (jump, halt)) :
    jump = { source with target := jump.target } := by
  unfold Branch.settle at settled
  split at settled <;> cases settled <;> rfl

namespace Branch

/-- The opcode of a form. -/
def opcode (branch : Branch) (near : Bool) : List UInt8 :=
  if near then branch.near else branch.short.getD []

/-- The width in bits of the displacement of a form. -/
def width (branch : Branch) (near : Bool) : UInt64 := if near then branch.nearWidth else 8

/-- The length of a form, as a word. -/
def formLength (branch : Branch) (near : Bool) : UInt64 :=
  if near then branch.nearLength else branch.shortLength

/-- The number of bytes of a form, which need not be a word. -/
def exactLength (branch : Branch) (near : Bool) : Nat :=
  (branch.opcode near).length + (branch.width near / 8).toNat

/-- The length of a form is its exact length, as a word. -/
theorem formLength_eq (branch : Branch) (near : Bool) :
    branch.formLength near = UInt64.ofNat (branch.exactLength near) := by
  cases near with
  | true =>
    simp only [formLength, exactLength, opcode, width, nearLength, if_true, UInt64.ofNat_add,
      UInt64.ofNat_toNat]
  | false => simp [formLength, exactLength, opcode, width, shortLength]

end Branch

end Assembler
