import Assembler.Emission
import Assembler.Proofs.BitField.Write
import Assembler.Proofs.Emission.Address
import Assembler.Proofs.Layout.Measures
import Mathlib.Tactic.MkIffOfInductiveProp

/-!
# Lengths of emitted bodies

Each kind of body has a function that counts its bytes before the layout and another that writes
them afterwards. Here they are shown to agree, kind by kind: writing a field keeps the length of its
room (`Emission.OfField.fills`), data is as long as its items, operands leave the length of an
encoding alone, and the sequences of code filling add up to the padding that they fill.
-/

namespace Assembler

variable {offset : UInt64} {output : Output}

/-- An emission has as many bytes as it should have, and no report says otherwise. -/
structure Emission.Fills (emission : Emission) (length : Nat) : Prop where
  length_eq : emission.bytes.length = length
  matching : ∀ diagnostic ∈ emission.diagnostics, Cause.lengthMismatch ∉ diagnostic.error.causes

theorem Emission.fills_ofBytes (bytes : List UInt8) :
    (Emission.ofBytes bytes).Fills bytes.length where
  length_eq := rfl
  matching := by
    intro diagnostic member
    cases member

/-- One emission behind another fills both their lengths. -/
theorem Emission.Fills.append {first second : Emission} {before after : Nat}
    (fillsFirst : first.Fills before) (fillsSecond : second.Fills after) :
    (first.append second).Fills (before + after) where
  length_eq := by
    rw [Emission.append, List.length_append, fillsFirst.length_eq, fillsSecond.length_eq]
  matching := by
    intro diagnostic member
    rcases List.mem_append.mp member with earlier | later
    · exact fillsFirst.matching diagnostic earlier
    · exact fillsSecond.matching diagnostic later

/-- Everything that a field refers to exists. -/
@[mk_iff]
structure Object.Resolves (object : Object) (field : Field) : Prop where
  positions : ∀ location ∈ field.expr.places, object.covers location = true
  origin : ∀ location ∈ field.origin, object.covers location = true
  symbol : ∀ symbol ∈ field.symbol, (object.table.get? symbol).isSome = true

instance (object : Object) (field : Field) : Decidable (object.Resolves field) :=
  decidable_of_iff _ (object.resolves_iff field).symm

namespace CopySite

@[simp] theorem moveOrigin_sectionId (site : CopySite) (origin : Location) :
    (site.moveOrigin origin).sectionId = origin.sectionId := by
  unfold moveOrigin
  split <;> rfl

/-- The report of an error with a field is about a length only if the error is. -/
theorem report_causes {site : CopySite} {field : Field} {error : Error}
    (matching : Cause.lengthMismatch ∉ error.causes) :
    Cause.lengthMismatch ∉ (site.report field error).error.causes := by
  simp only [report]
  split
  · split
    · simpa [Error.causes] using matching
    · exact matching
  · exact matching

end CopySite

/-- The standard output refuses a relocation for reasons that have to do with its symbol only. -/
theorem Output.relocate_error {table : SymbolTable} {allowRelocs : Bool} {field : Field}
    {symbol : SymbolId} {error : Error}
    (refused : (Output.standard table allowRelocs).relocate field symbol offset = .error error) :
    Cause.lengthMismatch ∉ error.causes := by
  simp only [Output.standard] at refused
  repeat' split at refused
  all_goals cases refused
  all_goals simp [Error.causes]

/-- An output leaves as many bytes as it is given. -/
def Output.Fitting (output : Output) : Prop :=
  ∀ field room check, (output.write field room check).1.length = room.length

/-- The standard output fits. -/
theorem Output.Fitting.standard {table : SymbolTable} {allowRelocs : Bool} :
    (Output.standard table allowRelocs).Fitting := by
  intro field room check
  simp only [Output.standard, Field.write]
  split
  · exact BitField.length_write ..
  · rfl

/-- What becomes of a field: it is written, or a relocation is made for it or refused. -/
inductive Emission.OfField (output : Output) (site : CopySite) (field : Field)
    (room : List UInt8) : Emission → Prop
  | written (absent : field.symbol = none) (resolved : Field) (requests : List Request) :
    OfField output site field room
      { bytes := (output.write resolved room field.check).1
        requests
        diagnostics :=
          ((output.write resolved room field.check).2.map (site.report field)).toList }
  | relocated (present : field.symbol ≠ none) (requests : List Request) (reloc : Reloc) :
    OfField output site field room { bytes := room, requests, relocs := [reloc] }
  | refused (requests : List Request) (error : Error)
      (reason : error = .foreignOrigin ∨ ∃ resolved symbol offset,
        output.relocate resolved symbol offset = .error error) :
    OfField output site field room
      { bytes := room, requests, diagnostics := [site.report field error] }

namespace Emission.OfField

variable {emission : Emission} {site : CopySite} {field : Field} {room : List UInt8}

/-- A field fills the room that it has. -/
theorem length_eq (ofField : emission.OfField output site field room)
    (fitting : output.Fitting) : emission.bytes.length = room.length := by
  cases ofField with
  | written _ resolved _ => exact fitting resolved room field.check
  | relocated | refused => rfl

/-- The standard output fills the room of a field, no more and no less. -/
theorem fills {table : SymbolTable} {allowRelocs : Bool}
    (ofField : emission.OfField (.standard table allowRelocs) site field room) :
    emission.Fills room.length := by
  refine ⟨ofField.length_eq .standard, fun diagnostic member => ?_⟩
  cases ofField with
  | written _ resolved _ =>
    obtain ⟨error, failed, rfl⟩ := Option.map_eq_some_iff.mp (Option.mem_toList.mp member)
    refine CopySite.report_causes ?_
    simp only [Output.standard, Field.write] at failed
    split at failed
    · obtain ⟨problem, _, rfl⟩ := Option.map_eq_some_iff.mp failed
      cases problem <;> simp [Error.causes]
    · cases failed
      simp [Error.causes]
  | relocated => cases member
  | refused _ error reason =>
    rw [List.mem_singleton.mp member]
    refine CopySite.report_causes ?_
    rcases reason with rfl | ⟨_, _, _, refused⟩
    · simp [Error.causes]
    · exact Output.relocate_error refused

end Emission.OfField

/-- Filling an alignment gives as many bytes as asked for. -/
theorem Align.length_fillBytes {padding : Align} (checked : checkCodeFill padding.codeFill = none)
    (length : Nat) : (padding.fillBytes length).length = length := by
  unfold Align.fillBytes
  cases filling : padding.codeFill with
  | nil => exact List.length_replicate
  | cons first entries =>
    rw [filling] at checked
    obtain ⟨present, lengths⟩ := checkCodeFill_none checked
    have positive : 0 < entries.length := List.length_pos_iff.mpr present
    have longest : ((first :: entries)[entries.length]?.getD []).length = entries.length := by
      have last := lengths (entries.length - 1) (by omega)
      rwa [Nat.sub_add_cancel positive] at last
    have shorter := Nat.mod_lt length positive
    have rest : (if length % entries.length = 0 then []
        else (first :: entries)[length % entries.length]?.getD []).length =
          length % entries.length := by
      split
      · next none => simp [none]
      · next some =>
        have fitting := lengths (length % entries.length - 1) (by omega)
        rwa [Nat.sub_add_cancel (Nat.pos_of_ne_zero some)] at fitting
    simp only [List.length_cons, Nat.add_sub_cancel, List.length_append, List.length_flatten,
      List.map_replicate, longest, rest, List.sum_replicate_nat]
    exact Nat.div_add_mod' length entries.length

/-- The field that a form writes: its value counts from the end of the branch. -/
def Branch.displacement (branch : Branch) (near : Bool) : Field :=
  { branch.target with
    width := branch.width near
    expr := branch.target.expr.addInt (-(branch.formLength near).toInt64).toInt }

namespace Object

/-- The address that a field's value counts from in a copy. -/
def originAddress (object : Object) (site : CopySite) (field : Field) : Except Dangling UInt64 :=
  match field.origin with
  | none => .ok 0
  | some location => object.locationAddress (site.moveOrigin location)

section

variable {object : Object} (table : SymbolTable) (allowRelocs : Bool) {site : CopySite}
  {field : Field}

/-- A field without a symbol is written in place. -/
theorem emitField_written (absent : field.symbol = none) {sum : Int} {subtracted : UInt64}
    (value : object.address field.expr = .ok sum)
    (start : object.originAddress site field = .ok subtracted) (offset : UInt64)
    (room : List UInt8) :
    ∃ emission, object.emitField (.standard table allowRelocs) site offset field room =
        .ok emission ∧
      emission.bytes = (BitField.write room (sum - subtracted.toNat) field.width 0 field.check).1 ∧
      emission.diagnostics =
        ((BitField.write room (sum - subtracted.toNat) field.width 0 field.check).2.map
          fun problem => site.report field (.bitField problem)).toList := by
  have check : (if field.quiet then .none else field.check) = field.check := by
    unfold Field.check
    split <;> rfl
  unfold originAddress at start
  cases origin : field.origin with
  | none =>
    simp only [origin, Except.ok.injEq] at start
    subst start
    simp only [emitField, value, absent, origin, Option.map_none, bind, Except.bind, pure,
      Except.pure, Output.standard, Field.write, Field.isConstant, Expr.isConstant, Expr.ofInt,
      List.isEmpty_nil, Option.isNone_none, Bool.and_self, if_true, check, Option.map_map]
    exact ⟨_, rfl, rfl, rfl⟩
  | some location =>
    simp only [origin] at start
    simp only [emitField, value, absent, origin, Option.map_some, start, bind, Except.bind, pure,
      Except.pure, Output.standard, Field.write, Field.isConstant, Expr.isConstant, Expr.ofInt,
      List.isEmpty_nil, Option.isNone_none, Bool.and_self, if_true, check, Option.map_map]
    exact ⟨_, rfl, rfl, rfl⟩

/-- A field with a symbol leaves its room alone and asks for a relocation. -/
theorem ofField_relocate (output : Output) (site : CopySite) {field : Field} {symbol : SymbolId}
    (known : field.symbol = some symbol) (resolved : Field) (start : UInt64)
    (requests : List Request) (room : List UInt8) :
    Emission.OfField output site field room
      (match output.relocate resolved symbol start with
      | .ok reloc => { bytes := room, requests, relocs := [reloc] }
      | .error error => { bytes := room, requests, diagnostics := [site.report field error] }) := by
  cases outcome : output.relocate resolved symbol start with
  | ok reloc => exact .relocated (by simp [known]) requests reloc
  | error error => exact .refused requests error (.inr ⟨_, _, _, outcome⟩)

/-- A field is emitted, unless something that it refers to cannot be found. -/
theorem emitField_yields {bad : Dangling → Prop} (output : Output)
    (value : Yields (fun _ => True) bad (object.address field.expr))
    (own : Yields (fun _ => True) bad (object.getSection site.sectionId))
    (origin : ∀ location ∈ field.origin,
      Yields (fun _ => True) bad (object.getSection location.sectionId))
    (symbols : ∀ symbol ∈ field.symbol, Yields (fun _ => True) bad (object.table.get symbol))
    (offset : UInt64) (room : List UInt8) :
    Yields (Emission.OfField output site field room) bad
      (object.emitField output site offset field room) := by
  have moved : ∀ location ∈ field.origin,
      Yields (fun _ => True) bad (object.getSection (site.moveOrigin location).sectionId) := by
    intro location counted
    rw [site.moveOrigin_sectionId]
    exact origin location counted
  unfold emitField
  refine value.bind fun sum _ => ?_
  cases known : field.symbol with
  | none =>
    cases counted : field.origin with
    | none => exact Emission.OfField.written known _ _
    | some location =>
      exact (location_yields (moved location counted)).2.bind fun _ _ =>
        Emission.OfField.written known _ _
  | some symbol =>
    refine (location_yields own).1.bind fun start _ =>
      (symbols symbol known).bind fun _ _ => ?_
    cases counted : field.origin with
    | none => exact ofField_relocate _ _ known ..
    | some location =>
      refine (location_yields (moved location counted)).1.bind fun _ _ => ?_
      split
      · exact Emission.OfField.refused _ _ (.inl rfl)
      · exact ofField_relocate _ _ known ..

/-- A field that cannot be emitted refers to something that does not exist. -/
theorem emitField_missing (object : Object) (output : Output) (site : CopySite) (offset : UInt64)
    (field : Field) (room : List UInt8) :
    Yields (Emission.OfField output site field room) Dangling.Missing
      (object.emitField output site offset field room) :=
  emitField_yields output (object.address_missing _) (object.getSection_missing _)
    (fun _ _ => object.getSection_missing _) (fun _ _ => object.table.get_missing _) offset room

/-- What emitting a field gives is a field's emission. -/
theorem ofField_of_emitField {room : List UInt8}
    {emission : Emission}
    (emitted : object.emitField output site offset field room = .ok emission) :
    emission.OfField output site field room := by
  have yields := emitField_missing object output site offset field room
  rwa [emitted] at yields

/-- A field has the length of the room that it is given. -/
theorem length_of_emitField (fitting : output.Fitting)
    {room : List UInt8} {emission : Emission}
    (emitted : object.emitField output site offset field room = .ok emission) :
    emission.bytes.length = room.length :=
  (ofField_of_emitField emitted).length_eq fitting

/-- A field is emitted if everything that it refers to exists. -/
theorem emitField_resolved (output : Output) (resolves : object.Resolves field)
    (here : ∃ sect, object.getSection site.sectionId = .ok sect) (offset : UInt64)
    (room : List UInt8) :
    Yields (Emission.OfField output site field room) (fun _ => False)
      (object.emitField output site offset field room) := by
  refine emitField_yields output ?_ ?_ ?_ ?_ offset room
  · rw [address_eq resolves.positions]
    trivial
  · obtain ⟨sect, found⟩ := here
    rw [found]
    trivial
  · intro location counted
    obtain ⟨sect, found⟩ := covers_iff.mp (resolves.origin location counted)
    rw [found]
    trivial
  · intro symbol known
    obtain ⟨entry, defined⟩ := Option.isSome_iff_exists.mp (resolves.symbol symbol known)
    rw [SymbolTable.get, defined]
    trivial

/-- A field that cannot be emitted refers to something that does not exist, and that is why. -/
theorem emitField_dangling (output : Output)
    (here : ∃ sect, object.getSection site.sectionId = .ok sect) (offset : UInt64)
    (room : List UInt8) :
    Yields (Emission.OfField output site field room)
      (fun reference => reference.Missing ∧ ¬ object.Resolves field)
      (object.emitField output site offset field room) := by
  have missing := emitField_missing object output site offset field room
  cases emitted : object.emitField output site offset field room with
  | ok emission => exact ofField_of_emitField emitted
  | error reference =>
    rw [emitted] at missing
    refine ⟨missing, fun resolves => ?_⟩
    have total := emitField_resolved output resolves here offset room
    rwa [emitted] at total

/-- Emitted data is as long as its items together. -/
theorem emitItems_ok {items : List DataItem}
    (resolves : ∀ item ∈ items, ∀ field ∈ item.fields, object.Resolves field)
    (here : ∃ sect, object.getSection site.sectionId = .ok sect) (offset : UInt64) :
    ∃ emission, object.emitItems (.standard table allowRelocs) site offset items = .ok emission ∧
      emission.Fills (items.map DataItem.exactSize).sum := by
  induction items generalizing offset with
  | nil => exact ⟨{}, rfl, Emission.fills_ofBytes []⟩
  | cons item rest ih =>
    have later := ih fun other member => resolves other (List.mem_cons_of_mem _ member)
    cases item with
    | bytes bytes =>
      obtain ⟨others, emitted, fills⟩ := later (offset + DataItem.size (.bytes bytes))
      refine ⟨(Emission.ofBytes bytes).append others, ?_,
        (Emission.fills_ofBytes bytes).append fills⟩
      simp [emitItems, emitted, bind, Except.bind, pure, Except.pure]
    | field field =>
      obtain ⟨others, emitted, fills⟩ := later (offset + DataItem.size (.field field))
      obtain ⟨written, wrote, ofField⟩ := (emitField_resolved (.standard table allowRelocs)
        (resolves (.field field) List.mem_cons_self field List.mem_cons_self) here offset
        (List.replicate (DataItem.size (.field field)).toNat 0)).exists_ok
      have filled := ofField.fills
      rw [List.length_replicate] at filled
      refine ⟨written.append others, ?_, filled.append fills⟩
      simp [emitItems, wrote, emitted, bind, Except.bind, pure, Except.pure]

/-- Operands that lie inside an encoding leave its length alone. -/
theorem emitOperands_ok {operands : List Operand} {bytes : List UInt8}
    (resolves : ∀ operand ∈ operands, object.Resolves operand.field)
    (here : ∃ sect, object.getSection site.sectionId = .ok sect)
    (inside : ∀ operand ∈ operands,
      operand.offset.toNat + (operand.field.width / 8).toNat ≤ bytes.length) :
    ∃ emission, object.emitOperands (.standard table allowRelocs) site bytes operands =
        .ok emission ∧ emission.Fills bytes.length := by
  induction operands generalizing bytes with
  | nil => exact ⟨_, rfl, Emission.fills_ofBytes bytes⟩
  | cons operand rest ih =>
    have fits := inside operand List.mem_cons_self
    obtain ⟨written, wrote, ofField⟩ := (emitField_resolved (.standard table allowRelocs)
      (resolves operand List.mem_cons_self) here operand.offset
      ((bytes.drop operand.offset.toNat).take (operand.field.width / 8).toNat)).exists_ok
    have filled := ofField.fills
    have patched : (bytes.take operand.offset.toNat ++ written.bytes ++
        bytes.drop (operand.offset.toNat + (operand.field.width / 8).toNat)).length =
          bytes.length := by
      simp only [List.length_append, filled.length_eq, List.length_take, List.length_drop]
      omega
    obtain ⟨others, emitted, fills⟩ :=
      ih (fun other member => resolves other (List.mem_cons_of_mem _ member))
        (fun other member => patched ▸ inside other (List.mem_cons_of_mem _ member))
    have reported : ({ written with bytes := [] } : Emission).Fills 0 := ⟨rfl, filled.matching⟩
    refine ⟨({ written with bytes := [] } : Emission).append others, ?_, ?_⟩
    · simp only [emitOperands, if_neg (Nat.not_lt.mpr fits), wrote, emitted, bind, Except.bind,
        pure, Except.pure]
    · rw [patched] at fills
      simpa using reported.append fills

/-- A branch is emitted as the opcode of its form and the displacement. -/
theorem emitBranch_eq (output : Output) (site : CopySite) (jump : Branch) (near : Bool) :
    object.emitBranch output site jump near =
      (object.emitField output site (UInt64.ofNat (jump.opcode near).length)
        (jump.displacement near) (List.replicate (jump.width near / 8).toNat 0)).map
          (Emission.ofBytes (jump.opcode near)).append := by
  simp only [emitBranch, Branch.opcode, Branch.displacement, Branch.width, Branch.formLength, bind,
    Except.bind, pure, Except.pure]
  cases object.emitField output site _ _ _ <;> rfl

/-- A branch that resolves is emitted in the length of its form. -/
theorem emitBranch_ok {jump : Branch} (resolves : object.Resolves jump.target)
    (here : ∃ sect, object.getSection site.sectionId = .ok sect) (near : Bool) :
    ∃ emission, object.emitBranch (.standard table allowRelocs) site jump near = .ok emission ∧
      emission.Fills (jump.exactLength near) := by
  have moved : object.Resolves (jump.displacement near) :=
    ⟨resolves.positions, resolves.origin, resolves.symbol⟩
  obtain ⟨written, wrote, ofField⟩ := (emitField_resolved (.standard table allowRelocs) moved here
    (UInt64.ofNat (jump.opcode near).length)
    (List.replicate (jump.width near / 8).toNat 0)).exists_ok
  have filled := ofField.fills
  rw [List.length_replicate] at filled
  refine ⟨(Emission.ofBytes (jump.opcode near)).append written, ?_,
    (Emission.fills_ofBytes _).append filled⟩
  rw [emitBranch_eq, wrote]
  rfl

variable {integer : VariableInteger} {value : Int}
  (found : object.address integer.value.expr = .ok value)
  (small : site.chunk.slot.length.toNat < 2 ^ 63)
include found small

/-- An integer that has room is padded to the length of its slot, with a warning at most. -/
theorem emitInteger_groups
    (room : Leb128.size value integer.signed ≤ site.chunk.slot.length.toNat) :
    ∃ emission, object.emitInteger site integer = .ok (emission, none) ∧
      emission.bytes = Leb128.groupsOf value site.chunk.slot.length.toNat ∧
      ∀ diagnostic ∈ emission.diagnostics, diagnostic.severity = .warning ∧
        Cause.lengthMismatch ∉ diagnostic.error.causes := by
  have wide : ¬ site.chunk.slot.length.toInt64.toInt < Leb128.size value integer.signed := by
    rw [toInt_toInt64 small]
    omega
  simp only [emitInteger, found, bind, Except.bind, Leb128.encodePadded, if_neg wide, pure,
    Except.pure]
  refine ⟨_, rfl, ?_, ?_⟩
  · rw [toInt_toInt64 small, Int.toNat_natCast]
  · intro diagnostic member
    simp only at member
    split at member
    · rw [List.mem_singleton.mp member]
      simp [Error.causes]
    · cases member

/-- An integer that its slot has room for fills the slot. -/
theorem emitInteger_ok (room : Leb128.size value integer.signed ≤ site.chunk.slot.length.toNat) :
    ∃ emission, object.emitInteger site integer = .ok (emission, none) ∧
      emission.Fills site.chunk.slot.length.toNat := by
  obtain ⟨emission, emitted, bytes, warnings⟩ := emitInteger_groups found small room
  refine ⟨emission, emitted, ?_, fun diagnostic member => (warnings diagnostic member).2⟩
  rw [bytes, Leb128.length_groupsOf]

/-- An integer without room breaks the promise of the layout. -/
theorem emitInteger_narrow
    (narrow : site.chunk.slot.length.toNat < Leb128.size value integer.signed) :
    ∃ emission problem,
      object.emitInteger site integer = .ok (emission, some (.lengthMismatch problem)) := by
  have short : site.chunk.slot.length.toInt64.toInt < Leb128.size value integer.signed := by
    rw [toInt_toInt64 small]
    omega
  simp only [emitInteger, found, bind, Except.bind, Leb128.encodePadded, if_pos short, pure,
    Except.pure]
  exact ⟨_, _, rfl⟩

end

end Object

end Assembler
