import Assembler.Proofs.Emission.Length
import Assembler.Proofs.Layout.Extent

/-!
# The content of a copy

A chunk of a layout without an error was measured as the word that its bytes count
(`Section.Clean.length_eq`), and each of its copies is emitted with that length
(`emitCopy_fills`), as long as the words of the layout have not wrapped. The one exception is an
integer whose value grew beyond what its slot has room for (`emitCopy_narrow`).
-/

namespace Assembler

variable {integer : VariableInteger}

/-- The fields that a body writes. -/
def Body.fields : Body → List Field
  | .data items => items.flatMap DataItem.fields
  | .leb128 integer => [integer.value]
  | .instruction code => code.operands.map Operand.field
  | .branch jump => [jump.target]
  | .reserve .. | .binary _ | .align _ | .org _ => []

/-- The operands of a body that is an instruction. -/
def Body.operands : Body → List Operand
  | .instruction code => code.operands
  | _ => []

/-- The integer of a body that is one. -/
def Body.integer? : Body → Option VariableInteger
  | .leb128 integer => some integer
  | _ => none

/-- No address wraps in a section of an object, and everything that the section refers to exists. -/
@[mk_iff]
structure Object.Addressable (object : Object) (sect : Section) : Prop where
  size : sect.exactSize < 2 ^ 63
  references : ∀ chunk ∈ sect.chunks, ∀ field ∈ chunk.body.fields, object.Resolves field
  operands : ∀ chunk ∈ sect.chunks, ∀ operand ∈ chunk.body.operands,
    operand.offset.toNat < 2 ^ 63
  coefficients : ∀ chunk ∈ sect.chunks, ∀ integer ∈ chunk.body.integer?,
    isWord integer.value.expr.coefficientSum = true
  addresses : ∀ chunk ∈ sect.chunks, ∀ integer ∈ chunk.body.integer?,
    ∀ location ∈ integer.value.expr.places,
      sect.base.toNat + (sect.offsetOf location).toNat < 2 ^ 64

instance (object : Object) (sect : Section) : Decidable (object.Addressable sect) :=
  decidable_of_iff _ (object.addressable_iff sect).symm

/-- The value of a chunk that is an integer, at the offsets of its section, has room in its slot. -/
def Chunk.Roomy (chunk : Chunk) (sect : Section) (id : Nat) : Prop :=
  ∀ integer ∈ chunk.body.integer?, integer.value.isConstant = false →
    Leb128.size ((sect.relaxed id).exactValue integer.value) integer.signed ≤
      chunk.slot.length.toNat
deriving Decidable

/-- A body has an integer if it is one. -/
theorem Body.integer?_eq_some {body : Body} :
    body.integer? = some integer ↔ body = .leb128 integer := by
  cases body <;> simp [Body.integer?]

namespace Object

/-- What one copy of a chunk holds, before its length is held against the layout. -/
def emitContent (object : Object) (output : Output) (site : CopySite) :
    Except Dangling (Emission × Option Error) :=
  let length := site.chunk.slot.length.toNat
  match site.chunk.body with
  | .data items => do pure (← object.emitItems output site 0 items, none)
  | .leb128 integer => object.emitInteger site integer
  | .reserve .. => pure (Emission.ofBytes (List.replicate length 0), none)
  | .binary part => pure (Emission.ofBytes ((part.data.drop part.skip).take length), none)
  | .align padding => pure (Emission.ofBytes (padding.fillBytes length), none)
  | .org padding => pure (Emission.ofBytes (List.replicate length padding.fill), none)
  | .instruction code => do
    pure (← object.emitOperands output site code.bytes code.operands, none)
  | .branch jump => do pure (← object.emitBranch output site jump site.chunk.slot.near, none)

/-- A copy is its content, unless the content has the wrong length. -/
theorem emitCopy_eq (object : Object) (output : Output) (site : CopySite) :
    object.emitCopy output site = (do
      let (emission, error) ← object.emitContent output site
      match error with
      | some error => return (emission, some error)
      | none =>
        if emission.bytes.length = site.chunk.slot.length.toNat then return (emission, none)
        else
          return (emission, some (.wrongLength site.chunk.kind site.index emission.bytes.length
            site.chunk.slot.length))) := by
  unfold emitCopy emitContent
  cases site.chunk.body with
  | data items =>
    dsimp only
    cases object.emitItems output site 0 items <;> rfl
  | instruction code =>
    dsimp only
    cases object.emitOperands output site code.bytes code.operands <;> rfl
  | branch jump =>
    dsimp only
    cases object.emitBranch output site jump site.chunk.slot.near <;> rfl
  | leb128 | reserve | binary | align | org => rfl

section

variable {object : Object} {sect : Section} {symbols : SymbolTable} {id index : Nat} {chunk : Chunk}
  (table : SymbolTable) (allowRelocs : Bool) {site : CopySite}

/-- The value of an integer that is no constant is the distance that layout measures, if none of its
addresses wraps. -/
theorem address_measured (clean : sect.Clean symbols id) (found : object.sections[id]? = some sect)
    (chunkAt : sect.chunks[index]? = some chunk)
    (isInteger : chunk.body = .leb128 integer) (unknown : integer.value.isConstant = false)
    (word : isWord integer.value.expr.coefficientSum = true)
    (unwrapped : ∀ location ∈ integer.value.expr.places,
      sect.base.toNat + (sect.offsetOf location).toNat < 2 ^ 64) :
    object.address integer.value.expr = .ok ((sect.relaxed id).exactValue integer.value) := by
  obtain ⟨origin⟩ := clean.origin chunkAt
  have registered := origin.leb128_span isInteger unknown
  have member := List.mem_append_right origin.countSpan.toList (Option.mem_toList.mpr registered)
  obtain ⟨final, finalMember, _, purpose, field, _⟩ := clean.watcher chunkAt origin member rfl
  have distance := clean.isDistanceIn finalMember (by rw [purpose]; rfl)
  rw [field] at distance
  rw [address_eq_exactValue found distance word unwrapped, (origin.integer_value isInteger).2]
  exact congrArg Except.ok (Int.add_zero _)

/-- No address of an integer wraps in a section where none does. -/
theorem address_integer (clean : sect.Clean symbols id) (found : object.sections[id]? = some sect)
    (addressable : object.Addressable sect) (chunkAt : sect.chunks[index]? = some chunk)
    (isInteger : chunk.body = .leb128 integer)
    (unknown : integer.value.isConstant = false) :
    object.address integer.value.expr = .ok ((sect.relaxed id).exactValue integer.value) := by
  have member := List.mem_of_getElem? chunkAt
  have isSome := Body.integer?_eq_some.mpr isInteger
  exact address_measured clean found chunkAt isInteger unknown
    (addressable.coefficients chunk member integer isSome)
    (addressable.addresses chunk member integer isSome)

/-- A constant is its own address. -/
theorem address_constant {field : Field} (known : field.isConstant = true) :
    object.address field.expr = .ok field.expr.constant := by
  have none : field.expr.terms = [] := by
    simp only [Field.isConstant, Expr.isConstant, Bool.and_eq_true, List.isEmpty_iff] at known
    exact known.1.1
  rw [address_eq_foldlM, none]
  rfl

/-- An operand whose end was found inside an encoding lies inside it, if its offset is no wrapped
word. -/
theorem operand_inside {operand : Operand} {size : Nat}
    (checked : (operand.offset + operand.field.width / 8).toNat ≤ size)
    (bounded : operand.offset.toNat < 2 ^ 63) :
    operand.offset.toNat + (operand.field.width / 8).toNat ≤ size := by
  have narrow : (operand.field.width / 8).toNat < 2 ^ 63 := by
    have word := operand.field.width.toNat_lt
    rw [UInt64.toNat_div]
    exact Nat.lt_of_le_of_lt (Nat.div_le_div_right (Nat.le_of_lt_succ word)) (by decide)
  rwa [UInt64.toNat_add, Nat.mod_eq_of_lt (by omega)] at checked

section

variable (clean : sect.Clean symbols id) (found : object.sections[id]? = some sect)
  (addressable : object.Addressable sect) (chunkAt : sect.chunks[index]? = some site.chunk)
  (repeated : 0 < site.chunk.count) (roomy : site.chunk.Roomy sect id)
  (here : site.sectionId = id)
include clean found addressable chunkAt repeated roomy here

/-- The content of a copy is as long as its slot. -/
theorem emitContent_fills :
    ∃ emission, object.emitContent (.standard table allowRelocs) site = .ok (emission, none) ∧
      emission.Fills site.chunk.slot.length.toNat := by
  have member := List.mem_of_getElem? chunkAt
  have resolves := addressable.references site.chunk member
  have home : ∃ sect, object.getSection site.sectionId = .ok sect :=
    ⟨sect, by rw [here, getSection_natCast, found]⟩
  obtain ⟨origin⟩ := clean.origin chunkAt
  obtain ⟨length, bounded⟩ := clean.toNat_length addressable.size chunkAt repeated
  have small : site.chunk.slot.length.toNat < 2 ^ 63 := length ▸ bounded
  unfold emitContent
  unfold Chunk.exactLength at length
  cases isBody : site.chunk.body with
  | data items =>
    rw [isBody] at resolves length
    obtain ⟨emission, emitted, fills⟩ := emitItems_ok table allowRelocs
      (fun item itemMember field fieldMember =>
        resolves field (List.mem_flatMap.mpr ⟨item, itemMember, fieldMember⟩)) home 0
    refine ⟨emission, ?_, length ▸ fills⟩
    simp only [emitted, bind, Except.bind, pure, Except.pure]
  | leb128 integer =>
    -- A constant was measured exactly; any other value is padded to what its slot grew to.
    cases known : integer.value.isConstant with
    | true =>
      rw [isBody] at length
      dsimp only at length
      rw [if_pos known] at length
      exact emitInteger_ok (address_constant known) small (Nat.le_of_eq length.symm)
    | false =>
      exact emitInteger_ok (address_integer clean found addressable chunkAt isBody known) small
        (roomy integer (Body.integer?_eq_some.mpr isBody) known)
  | reserve count itemSize =>
    refine ⟨_, rfl, ?_⟩
    simpa using Emission.fills_ofBytes (List.replicate site.chunk.slot.length.toNat 0)
  | binary part =>
    refine ⟨_, rfl, ?_⟩
    have inside := origin.binary_window isBody
    have fills :=
      Emission.fills_ofBytes ((part.data.drop part.skip).take site.chunk.slot.length.toNat)
    rwa [List.length_take, List.length_drop, Nat.min_eq_left inside] at fills
  | align padding =>
    refine ⟨_, rfl, ?_⟩
    have fills := Emission.fills_ofBytes (padding.fillBytes site.chunk.slot.length.toNat)
    rwa [Align.length_fillBytes (origin.align_filling isBody)] at fills
  | org padding =>
    refine ⟨_, rfl, ?_⟩
    simpa using Emission.fills_ofBytes (List.replicate site.chunk.slot.length.toNat padding.fill)
  | instruction code =>
    rw [isBody] at resolves length
    have checked := checkOperands_eq_none_iff.mp (origin.instruction_operands isBody)
    obtain ⟨emission, emitted, fills⟩ := emitOperands_ok table allowRelocs
      (fun operand operandMember => resolves _ (List.mem_map_of_mem operandMember)) home
      (fun operand operandMember => operand_inside (checked operand operandMember).2.2
        (addressable.operands site.chunk member operand (isBody ▸ operandMember)))
    refine ⟨emission, ?_, length ▸ fills⟩
    simp only [emitted, bind, Except.bind, pure, Except.pure]
  | branch jump =>
    rw [isBody] at resolves length
    obtain ⟨emission, emitted, fills⟩ := emitBranch_ok table allowRelocs
      (resolves _ (List.mem_singleton.mpr rfl)) home site.chunk.slot.near
    refine ⟨emission, ?_, length ▸ fills⟩
    simp only [emitted, bind, Except.bind, pure, Except.pure]

/-- A copy is emitted with the length of its slot. -/
theorem emitCopy_fills :
    ∃ emission, object.emitCopy (.standard table allowRelocs) site = .ok (emission, none) ∧
      emission.Fills site.chunk.slot.length.toNat := by
  obtain ⟨emission, emitted, fills⟩ :=
    emitContent_fills table allowRelocs clean found addressable chunkAt repeated roomy here
  refine ⟨emission, ?_, fills⟩
  rw [emitCopy_eq, emitted]
  exact if_pos fills.length_eq

end

/-- A copy of an integer without room is reported. -/
theorem emitCopy_narrow (output : Output) (site : CopySite) (clean : sect.Clean symbols id)
    (found : object.sections[id]? = some sect) (addressable : object.Addressable sect)
    (chunkAt : sect.chunks[index]? = some site.chunk) (repeated : 0 < site.chunk.count)
    (narrow : ¬ site.chunk.Roomy sect id) :
    ∃ emission error, object.emitCopy output site = .ok (emission, some error) ∧
      Cause.lengthMismatch ∈ error.causes := by
  simp only [Chunk.Roomy, not_forall, Nat.not_le] at narrow
  obtain ⟨integer, isSome, unknown, narrow⟩ := narrow
  have isInteger := Body.integer?_eq_some.mp isSome
  obtain ⟨length, bounded⟩ := clean.toNat_length addressable.size chunkAt repeated
  obtain ⟨emission, problem, emitted⟩ := emitInteger_narrow
    (address_integer clean found addressable chunkAt isInteger unknown) (length ▸ bounded) narrow
  have content :
      object.emitContent output site = .ok (emission, some (.lengthMismatch problem)) := by
    unfold emitContent
    rw [isInteger]
    exact emitted
  refine ⟨emission, .lengthMismatch problem, ?_, List.mem_cons_self⟩
  rw [emitCopy_eq, content]
  rfl

/-- A copy that breaks no promise has the length of its slot. -/
theorem length_of_emitCopy {output : Output} {emission : Emission}
    (emitted : object.emitCopy output site = .ok (emission, none)) :
    emission.bytes.length = site.chunk.slot.length.toNat := by
  rw [emitCopy_eq] at emitted
  obtain ⟨⟨content, error⟩, _, checked⟩ := exists_of_bind_ok emitted
  cases error with
  | some error => cases checked
  | none =>
    dsimp only at checked
    split at checked
    · next agrees =>
      cases checked
      exact agrees
    · cases checked

end

end Object

end Assembler
