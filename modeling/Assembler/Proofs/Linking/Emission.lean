import Assembler.Proofs.Emission.Reach
import Assembler.Proofs.Linking.Fields

/-!
# Emitting copies over imports

Filling in the relocations of a copy of a chunk gives what the copy holds with its imports linked
(`emitContent_links`). The items of data stand one behind the other. The operands of an instruction
are written into its encoding in any order; they must have bytes of their own there, and these must
be zero.
-/

namespace Assembler

variable {rest : List Operand} {object : Object}

variable {operand : Operand} {bytes content : List UInt8} {emission : Emission}

namespace Operand

/-- The end of an operand in its encoding. -/
def stop (operand : Operand) : Nat := operand.offset.toNat + (operand.field.width / 8).toNat

/-- Operands without a byte in common. -/
def Apart (left right : Operand) : Prop :=
  left.stop ≤ right.offset.toNat ∨ right.stop ≤ left.offset.toNat
deriving Decidable

/-- The bytes of an encoding that an operand is written into. -/
def room (operand : Operand) (bytes : List UInt8) : List UInt8 :=
  (bytes.drop operand.offset.toNat).take (operand.field.width / 8).toNat

/-- The bytes of an operand are zero. -/
def Zero (operand : Operand) (bytes : List UInt8) : Prop :=
  operand.room bytes = List.replicate (operand.field.width / 8).toNat 0
deriving Decidable

theorem Apart.symm {left right : Operand} (apart : left.Apart right) : right.Apart left :=
  Or.symm apart

/-- An operand inside an encoding has all its bytes there. -/
theorem length_room (inside : operand.stop ≤ bytes.length) :
    (operand.room bytes).length = (operand.field.width / 8).toNat := by
  unfold stop at inside
  rw [room, List.length_take, List.length_drop]
  omega

/-- An operand with a byte lies inside an encoding that has zeros for it. -/
theorem Zero.stop_le (zero : operand.Zero bytes)
    (whole : operand.field.Whole) : operand.stop ≤ bytes.length := by
  have positive := whole.size_pos
  have lengths := congrArg List.length zero
  rw [room, List.length_take, List.length_drop, List.length_replicate] at lengths
  unfold stop
  omega

/-- A patch elsewhere leaves the bytes of an operand alone. -/
theorem room_paint {patches : List Patch} {start : Nat} (clear : ∀ patch ∈ patches,
      patch.stop ≤ start + operand.offset.toNat ∨ start + operand.stop ≤ patch.start) :
    operand.room (paint patches start bytes) = operand.room bytes := by
  unfold room
  rw [take_drop_paint]
  apply paint_of_outside
  intro patch member
  have elsewhere := clear patch member
  have length : ((bytes.drop operand.offset.toNat).take (operand.field.width / 8).toNat).length ≤
      (operand.field.width / 8).toNat := List.length_take_le ..
  unfold stop at elsewhere
  omega

/-- An encoding with the bytes of an operand replaced. -/
def fill (operand : Operand) (bytes content : List UInt8) : List UInt8 :=
  bytes.take operand.offset.toNat ++ content ++ bytes.drop operand.stop

/-- Replacing the bytes of an operand paints them over the encoding. -/
theorem fill_eq_paint (inside : operand.stop ≤ bytes.length)
    (size : content.length = (operand.field.width / 8).toNat) (start : Nat) :
    operand.fill bytes content = paint [⟨start + operand.offset.toNat, content⟩] start bytes := by
  unfold fill stop at *
  rw [← size] at inside ⊢
  exact splice_eq_paint inside

/-- Patches over the content of an operand can be painted before it is filled in or afterwards. -/
theorem fill_paint {nested others : List Patch} {start : Nat}
    (inside : operand.stop ≤ bytes.length)
    (size : content.length = (operand.field.width / 8).toNat)
    (within : ∀ patch ∈ nested, start + operand.offset.toNat ≤ patch.start ∧
      patch.stop ≤ start + operand.offset.toNat + content.length) (clear : ∀ patch ∈ others,
      patch.stop ≤ start + operand.offset.toNat ∨ start + operand.stop ≤ patch.start) :
    operand.fill (paint others start bytes)
        (paint nested (start + operand.offset.toNat) content) =
      paint (nested ++ others) start (operand.fill bytes content) := by
  rw [fill_eq_paint inside size start, fill_eq_paint (by rwa [length_paint])
    (by rwa [length_paint]) start, paint_replaced within]
  intro patch member
  have elsewhere := clear patch member
  unfold Operand.stop at elsewhere
  unfold Patch.Apart Patch.stop at *
  dsimp only
  omega

/-- The bytes of an operand are still zero when those of another are filled. -/
theorem Zero.fill {other : Operand} (zero : other.Zero bytes) (apart : operand.Apart other)
    (inside : operand.stop ≤ bytes.length)
    (size : content.length = (operand.field.width / 8).toNat) :
    other.Zero (operand.fill bytes content) := by
  rw [Zero, fill_eq_paint inside size 0, room_paint, zero]
  intro patch member
  unfold Apart Operand.stop at apart
  rw [List.mem_singleton.mp member, Patch.stop]
  unfold Operand.stop
  dsimp only
  omega

variable (inside : operand.stop ≤ bytes.length)
  (size : content.length = (operand.field.width / 8).toNat)
include inside size

/-- An operand with its bytes filled has the content there. -/
theorem room_fill :
    operand.room (operand.fill bytes content) = content := by
  have before : (bytes.take operand.offset.toNat).length = operand.offset.toNat := by
    rw [List.length_take]
    unfold stop at inside
    omega
  rw [room, fill, List.append_assoc, List.drop_append, List.drop_eq_nil_of_le (by omega), before,
    Nat.sub_self, List.nil_append, List.drop_zero, ← size, List.take_left]

/-- Filling the bytes of an operand leaves the length of the encoding alone. -/
theorem length_fill :
    (operand.fill bytes content).length = bytes.length := by
  rw [fill_eq_paint inside size 0, length_paint]

end Operand

/-- The operands of an instruction have bytes of their own in the encoding, and these are zero. -/
@[mk_iff]
structure Instruction.Vacant (code : Instruction) : Prop where
  apart : code.operands.Pairwise Operand.Apart
  zero : ∀ operand ∈ code.operands, operand.Zero code.bytes

instance (code : Instruction) : Decidable code.Vacant :=
  decidable_of_iff _ (Instruction.vacant_iff code).symm

/-- If a body is an instruction, its operands have zero bytes of their own. -/
def Body.Vacant : Body → Prop
  | .instruction code => code.Vacant
  | _ => True

instance (body : Body) : Decidable body.Vacant := by
  cases body <;> unfold Body.Vacant <;> infer_instance

/-- The fields of a chunk have whole bytes, unless it is an integer in groups of seven bits. -/
def Chunk.Whole (chunk : Chunk) : Prop :=
  chunk.body.integer? = none → ∀ entry ∈ chunk.fieldsAt, entry.2.Whole

/-- The bytes of a copy are at offsets of its section that do not wrap. -/
def CopySite.LiesAt (copy : CopySite) (sect : Section) (start length : Nat) : Prop :=
  ∀ offset : UInt64, offset.toNat ≤ length →
    (sect.offsetOf ⟨copy.sectionId, copy.index, copy.offset + offset⟩).toNat =
      start + offset.toNat

@[simp] theorem Field.width_link (field : Field) (table : SymbolTable)
    (address : String → UInt64) : (field.link table address).width = field.width := rfl

/-- The displacement of a linked branch is the linked displacement. -/
theorem Branch.displacement_link (jump : Branch) (near : Bool) (table : SymbolTable)
    (address : String → UInt64) :
    (jump.link table address).displacement near = (jump.displacement near).link table address := by
  simp only [displacement, Branch.link, Field.link, Expr.addInt, Branch.width, Branch.formLength,
    Branch.nearLength, Branch.shortLength, Int.add_right_comm]

namespace Emission

/-- The operands of an encoding of some length over which patches lie. The relocations are in the
bytes of the operands and lie apart. If all of them can be filled in, what is emitted with the
imports linked is what filling them in gives, with the patches below. -/
structure OperandsLink (early : Emission) (base : UInt64) (resolve : SymbolId → Option UInt64)
    (start length : Nat) (operands : List Operand) (done : List Patch)
    (emits : Emission → Prop) : Prop where
  size : early.bytes.length = length
  inside : ∀ patch ∈ early.patches base resolve, ∃ operand ∈ operands,
    start + operand.offset.toNat ≤ patch.start ∧ patch.start < patch.stop ∧
      patch.stop ≤ start + operand.stop
  apart : (early.patches base resolve).Pairwise Patch.Apart
  linked : (∀ reloc ∈ early.relocs, reloc.Accepted base resolve) →
    ∃ late, emits late ∧ late.Silent ∧ late.relocs = [] ∧
      late.bytes = paint (early.patches base resolve ++ done) start early.bytes

namespace OperandsLink

variable {base : UInt64} {resolve : SymbolId → Option UInt64} {start length : Nat}
  {done : List Patch}

/-- Without operands the encoding stays as it is. -/
theorem nil (size : bytes.length = length) :
    (ofBytes bytes).OperandsLink base resolve start length [] done fun late =>
      (.ok (ofBytes (paint done start bytes)) : Except Dangling Emission) = .ok late where
  size := size
  inside := by simp [patches, ofBytes]
  apart := by simp [patches, ofBytes]
  linked _ := ⟨_, rfl, by simp [Silent, ofBytes], rfl, rfl⟩

/-- An operand before others that it has no byte in common with. -/
theorem cons {operand : Operand} {first others : Emission}
    {emitsFirst emitsRest emits : Emission → Prop}
    (links : first.Links base resolve (start + operand.offset.toNat) emitsFirst)
    (sizeFirst : first.bytes.length = (operand.field.width / 8).toNat)
    (separate : ∀ other ∈ rest, operand.Apart other)
    (linksRest : others.OperandsLink base resolve start length rest
      (first.patches base resolve ++ done) emitsRest)
    (together : ∀ one other, emitsFirst one →
      one.bytes = paint (first.patches base resolve) (start + operand.offset.toNat) first.bytes →
      emitsRest other → emits (({ one with bytes := [] } : Emission).append other)) :
    (({ first with bytes := [] } : Emission).append others).OperandsLink base resolve start length
      (operand :: rest) done emits := by
  have patches : (({ first with bytes := [] } : Emission).append others).patches base resolve =
      first.patches base resolve ++ others.patches base resolve := List.map_append
  have own : ∀ patch ∈ first.patches base resolve, start + operand.offset.toNat ≤ patch.start ∧
      patch.start < patch.stop ∧ patch.stop ≤ start + operand.stop := by
    intro patch member
    have bounds := links.inside patch member
    unfold Operand.stop
    omega
  have cross : ∀ left ∈ first.patches base resolve, ∀ right ∈ others.patches base resolve,
      left.Apart right := by
    intro left inFirst right inOthers
    obtain ⟨other, inRest, behind⟩ := linksRest.inside right inOthers
    have bounds := own left inFirst
    have away := separate other inRest
    unfold Operand.Apart at away
    unfold Patch.Apart
    omega
  refine ⟨linksRest.size, ?_, ?_, ?_⟩
  · intro patch member
    rw [patches] at member
    rcases List.mem_append.mp member with inFirst | inOthers
    · exact ⟨operand, List.mem_cons_self, own patch inFirst⟩
    · obtain ⟨other, inRest, bounds⟩ := linksRest.inside patch inOthers
      exact ⟨other, List.mem_cons_of_mem _ inRest, bounds⟩
  · rw [patches]
    exact List.pairwise_append.mpr ⟨links.apart, linksRest.apart, cross⟩
  · intro accepted
    obtain ⟨one, emitsOne, silentOne, relocsOne, bytesOne⟩ := links.linked
      fun reloc member => accepted reloc (List.mem_append_left _ member)
    obtain ⟨other, emitsOther, silentOther, relocsOther, bytesOther⟩ := linksRest.linked
      fun reloc member => accepted reloc (List.mem_append_right _ member)
    refine ⟨_, together one other emitsOne bytesOne emitsOther,
      silent_append.mpr ⟨silentOne, silentOther⟩, ?_, ?_⟩
    · simp [Emission.append, relocsOne, relocsOther]
    · have swapped := paint_comm cross start (paint done start others.bytes)
      rw [paint_paint, paint_paint, List.append_assoc (others.patches base resolve)] at swapped
      rw [patches]
      exact bytesOther.trans swapped.symm

/-- Operands that lie in an encoding without patches. -/
theorem links {operands : List Operand} {early : Emission} {emits : Emission → Prop}
    (operandsLink : early.OperandsLink base resolve start length operands [] emits)
    (inside : ∀ operand ∈ operands, operand.stop ≤ length) :
    early.Links base resolve start emits := by
  refine ⟨?_, operandsLink.apart, ?_⟩
  · intro patch member
    obtain ⟨operand, isOperand, bounds⟩ := operandsLink.inside patch member
    have fits := inside operand isOperand
    rw [operandsLink.size]
    omega
  · simpa using operandsLink.linked

end OperandsLink

end Emission

/-- Bytes alone have nothing to link. -/
theorem Emission.links_ofBytes {base : UInt64} {resolve : SymbolId → Option UInt64} {start : Nat}
    (bytes : List UInt8) :
    (ofBytes bytes).Links base resolve start fun linked => linked = ofBytes bytes :=
  .of_same rfl (by simp [Silent, ofBytes]) rfl

namespace Object

/-- The operands of an encoding, written one after the other. -/
theorem exists_of_emitOperands_cons {output : Output} {copy : CopySite}
    (emitted : object.emitOperands output copy bytes (operand :: rest) = .ok emission) :
    operand.stop ≤ bytes.length ∧ ∃ first others,
      object.emitField output copy operand.offset operand.field (operand.room bytes) =
        .ok first ∧
      object.emitOperands output copy (operand.fill bytes first.bytes) rest = .ok others ∧
      emission = ({ first with bytes := [] } : Emission).append others := by
  unfold emitOperands at emitted
  dsimp only at emitted
  split at emitted
  · cases emitted
  · next inside =>
    obtain ⟨first, wrote, emitted⟩ := exists_of_bind_ok emitted
    obtain ⟨others, emitsRest, same⟩ := exists_of_bind_ok emitted
    cases same
    exact ⟨Nat.not_lt.mp inside, first, others, wrote, emitsRest, rfl⟩

/-- An operand inside the encoding is written before the others. -/
theorem emitOperands_cons {output : Output} {copy : CopySite}
    {first others : Emission} (inside : operand.stop ≤ bytes.length)
    (wrote : object.emitField output copy operand.offset operand.field (operand.room bytes) =
      .ok first)
    (emitsRest : object.emitOperands output copy (operand.fill bytes first.bytes) rest =
      .ok others) :
    object.emitOperands output copy bytes (operand :: rest) =
      .ok (({ first with bytes := [] } : Emission).append others) := by
  unfold Operand.stop at inside
  unfold Operand.room at wrote
  unfold Operand.fill Operand.stop at emitsRest
  simp only [emitOperands, if_neg (Nat.not_lt.mpr inside), wrote, emitsRest, bind, Except.bind,
    pure, Except.pure]

/-- An integer asks for no relocation. -/
theorem emitInteger_relocs {copy : CopySite} {integer : VariableInteger}
    {error : Option Error}
    (emitted : object.emitInteger copy integer = .ok (emission, error)) : emission.relocs = [] := by
  unfold emitInteger at emitted
  obtain ⟨value, _, emitted⟩ := exists_of_bind_ok emitted
  dsimp only at emitted
  cases encoded : Leb128.encodePadded value integer.signed
      copy.chunk.slot.length.toInt64.toInt with
  | ok | error =>
    rw [encoded] at emitted
    cases emitted
    rfl

section

variable {early late : Object} {table symbols : SymbolTable} {sect : Section} {copy : CopySite}
  {start : Nat} (address : String → UInt64) (lateSymbols : SymbolTable) (allowed : Bool)

/-- An integer is emitted alike where its positions have the same addresses. -/
theorem emitInteger_alike {integer : VariableInteger}
    (alike : ∀ id ∈ integer.value.sectionIds, early.Alike late id) :
    late.emitInteger (copy.link table address) integer = early.emitInteger copy integer := by
  unfold emitInteger
  rw [address_alike alike]
  rfl

variable (found : early.sections[copy.sectionId]? = some sect)
include found

section

variable {length : Nat} (lies : copy.LiesAt sect start length)
  (bounded : sect.base.toNat + start + length < 2 ^ 64)
include lies bounded

/-- Data links if its fields do. -/
theorem emitItems_links {items : List DataItem} {offset : UInt64}
    (room : offset.toNat + (items.map DataItem.exactSize).sum ≤ length)
    (whole : ∀ entry ∈ DataItem.fieldsAt offset items, entry.2.Whole)
    (linkable : ∀ entry ∈ DataItem.fieldsAt offset items,
      (⟨copy, entry.1, entry.2⟩ : FieldSite).Linkable early late sect table)
    (emitted : early.emitItems (.standard symbols true) copy offset items = .ok emission)
    (silent : emission.Silent) :
    emission.Links sect.base (table.resolve address) (start + offset.toNat) fun linked =>
      late.emitItems (.standard lateSymbols allowed) (copy.link table address) offset
        (items.map (DataItem.link table address)) = .ok linked := by
  induction items generalizing offset emission with
  | nil =>
    cases emitted
    exact .of_same rfl silent rfl
  | cons item rest ih =>
    rw [List.map_cons, List.sum_cons] at room
    have next : (offset + item.size).toNat = offset.toNat + item.exactSize :=
      DataItem.toNat_add_size (by omega)
    cases item with
    | bytes content =>
      obtain ⟨others, later, same⟩ := exists_of_bind_ok emitted
      cases same
      have links := ih (by omega) whole linkable later (Emission.silent_append.mp silent).2
      rw [next, ← Nat.add_assoc] at links
      refine (Emission.links_ofBytes content).append links ?_
      rintro _ other rfl emitsOther
      simp only [List.map_cons, DataItem.link, emitItems, emitsOther, bind, Except.bind, pure,
        Except.pure]
    | field inner =>
      obtain ⟨first, written, emitted⟩ := exists_of_bind_ok emitted
      obtain ⟨others, later, same⟩ := exists_of_bind_ok emitted
      cases same
      obtain ⟨silentFirst, silentOthers⟩ := Emission.silent_append.mp silent
      have linkableFirst : (⟨copy, offset, inner⟩ : FieldSite).Linkable early late sect table :=
        linkable (offset, inner) List.mem_cons_self
      have place : (sect.siteOffset ⟨copy, offset, inner⟩).toNat = start + offset.toNat :=
        lies offset (by omega)
      have linksFirst := emitField_links address lateSymbols allowed found written silentFirst
        (whole (offset, inner) List.mem_cons_self) linkableFirst (by omega)
      have size : first.bytes.length = DataItem.exactSize (.field inner) := by
        rw [length_of_emitField .standard written, List.length_replicate]
        rfl
      have linksOthers := ih (by omega)
        (fun entry member => whole entry (List.mem_cons_of_mem _ member))
        (fun entry member => linkable entry (List.mem_cons_of_mem _ member)) later silentOthers
      rw [place] at linksFirst
      rw [next, ← Nat.add_assoc, ← size] at linksOthers
      refine linksFirst.append linksOthers ?_
      intro one other emitsOne emitsOther
      simp only [List.map_cons, DataItem.link, emitItems, DataItem.size, Field.width_link]
      have emitsRest : late.emitItems (.standard lateSymbols allowed) (copy.link table address)
          (offset + inner.width / 8) (rest.map (DataItem.link table address)) = .ok other :=
        emitsOther
      simp only [emitsOne, emitsRest, bind, Except.bind, pure, Except.pure]

/-- The operands of an encoding over which some patches lie. Filling in the relocations of the
operands and writing the operands with their imports linked keep in step. -/
theorem emitOperands_links {operands : List Operand} {bytes : List UInt8} {done : List Patch}
    {emission : Emission} (size : bytes.length = length)
    (whole : ∀ operand ∈ operands, operand.field.Whole)
    (linkable : ∀ operand ∈ operands,
      (⟨copy, operand.offset, operand.field⟩ : FieldSite).Linkable early late sect table)
    (apart : operands.Pairwise Operand.Apart) (zero : ∀ operand ∈ operands, operand.Zero bytes)
    (clear : ∀ patch ∈ done, ∀ operand ∈ operands,
      patch.stop ≤ start + operand.offset.toNat ∨ start + operand.stop ≤ patch.start)
    (emitted : early.emitOperands (.standard symbols true) copy bytes operands = .ok emission)
    (silent : emission.Silent) :
    emission.OperandsLink sect.base (table.resolve address) start length operands done fun linked =>
      late.emitOperands (.standard lateSymbols allowed) (copy.link table address)
        (paint done start bytes) (operands.map (Operand.link table address)) = .ok linked := by
  induction operands generalizing bytes done emission with
  | nil =>
    cases emitted
    exact .nil size
  | cons operand rest ih =>
    obtain ⟨inside, first, others, written, later, rfl⟩ := exists_of_emitOperands_cons emitted
    have silentFirst : first.Silent := (Emission.silent_append.mp silent).1
    have silentOthers := (Emission.silent_append.mp silent).2
    obtain ⟨apartFirst, apartRest⟩ := List.pairwise_cons.mp apart
    have wholeFirst := whole operand List.mem_cons_self
    have linkableFirst := linkable operand List.mem_cons_self
    have zeroFirst := zero operand List.mem_cons_self
    have clearFirst := fun patch member => clear patch member operand List.mem_cons_self
    have ends : operand.stop = operand.offset.toNat + (operand.field.width / 8).toNat := rfl
    have place : (sect.siteOffset ⟨copy, operand.offset, operand.field⟩).toNat =
        start + operand.offset.toNat := lies operand.offset (by omega)
    have sizeFirst : first.bytes.length = (operand.field.width / 8).toNat := by
      rw [length_of_emitField .standard written, zeroFirst, List.length_replicate]
    rw [zeroFirst] at written
    have linksFirst := emitField_links address lateSymbols allowed found written silentFirst
      wholeFirst linkableFirst (by omega)
    rw [place] at linksFirst
    refine .cons linksFirst sizeFirst apartFirst
      (@ih (operand.fill bytes first.bytes) _ others ?_
        (fun other inRest => whole other (List.mem_cons_of_mem _ inRest))
        (fun other inRest => linkable other (List.mem_cons_of_mem _ inRest)) apartRest ?_ ?_ later
        silentOthers) ?_
    · rw [Operand.length_fill inside sizeFirst, size]
    · exact fun other inRest => (zero other (List.mem_cons_of_mem _ inRest)).fill
        (apartFirst other inRest) inside sizeFirst
    · intro patch member other inRest
      rcases List.mem_append.mp member with inFirst | inDone
      · have bounds := linksFirst.inside patch inFirst
        have separate := apartFirst other inRest
        unfold Operand.Apart at separate
        omega
      · exact clear patch inDone other (List.mem_cons_of_mem _ inRest)
    · intro one other emitsOne bytesOne emitsOther
      have room : (operand.link table address).room (paint done start bytes) =
          List.replicate (operand.field.width / 8).toNat 0 :=
        (Operand.room_paint clearFirst).trans zeroFirst
      have filled : (operand.link table address).fill (paint done start bytes) one.bytes =
          paint (first.patches sect.base (table.resolve address) ++ done) start
            (operand.fill bytes first.bytes) := by
        rw [bytesOne]
        refine Operand.fill_paint inside sizeFirst (fun patch member => ?_) clearFirst
        exact ⟨(linksFirst.inside patch member).1, (linksFirst.inside patch member).2.2⟩
      have emitsField : late.emitField (.standard lateSymbols allowed) (copy.link table address)
          (operand.link table address).offset (operand.link table address).field
          (List.replicate (operand.field.width / 8).toNat 0) = .ok one := emitsOne
      exact emitOperands_cons (by rwa [length_paint]) (room ▸ emitsField) (filled ▸ emitsOther)

/-- Filling in the relocations of a branch gives the branch with its import linked. -/
theorem emitBranch_links {jump : Branch} {near : Bool} (room : jump.exactLength near ≤ length)
    (whole : (jump.displacement near).Whole)
    (linkable : (⟨copy, UInt64.ofNat (jump.opcode near).length, jump.displacement near⟩ :
      FieldSite).Linkable early late sect table)
    (emitted : early.emitBranch (.standard symbols true) copy jump near = .ok emission)
    (silent : emission.Silent) :
    emission.Links sect.base (table.resolve address) start fun linked =>
      late.emitBranch (.standard lateSymbols allowed) (copy.link table address)
        (jump.link table address) near = .ok linked := by
  rw [emitBranch_eq] at emitted
  cases written : early.emitField (.standard symbols true) copy
      (UInt64.ofNat (jump.opcode near).length) (jump.displacement near)
      (List.replicate (jump.width near / 8).toNat 0) with
  | error reference =>
    rw [written] at emitted
    cases emitted
  | ok displacement =>
    rw [written] at emitted
    cases emitted
    have small : (jump.opcode near).length ≤ length := by
      unfold Branch.exactLength at room
      omega
    have offset : (UInt64.ofNat (jump.opcode near).length).toNat = (jump.opcode near).length :=
      UInt64.toNat_ofNat_of_lt' (by simp only [UInt64.size]; omega)
    have place : (sect.siteOffset ⟨copy, UInt64.ofNat (jump.opcode near).length,
        jump.displacement near⟩).toNat = start + (jump.opcode near).length := by
      have lying := lies (UInt64.ofNat (jump.opcode near).length) (by omega)
      rwa [offset] at lying
    have links := emitField_links address lateSymbols allowed found written
      (Emission.silent_append.mp silent).2 whole linkable (by omega)
    rw [place] at links
    refine (Emission.links_ofBytes (jump.opcode near)).append links ?_
    rintro _ other rfl emitsOther
    rw [← Branch.displacement_link] at emitsOther
    rw [emitBranch_eq]
    exact congrArg (Except.map _) emitsOther

end

/-- Filling in the relocations of what a copy holds gives what it holds with its imports linked. -/
theorem emitContent_links {length : Nat} (sized : copy.chunk.exactLength = length)
    (lies : copy.LiesAt sect start length) (bounded : sect.base.toNat + start + length < 2 ^ 64)
    (whole : copy.chunk.Whole)
    (linkable : ∀ site ∈ copy.sites, site.Linkable early late sect table)
    (vacant : copy.chunk.body.Vacant)
    (emitted : early.emitContent (.standard symbols true) copy = .ok (emission, none))
    (silent : emission.Silent) :
    emission.Links sect.base (table.resolve address) start fun linked =>
      late.emitContent (.standard lateSymbols allowed) (copy.link table address) =
        .ok (linked, none) := by
  have body : (copy.link table address).chunk.body = copy.chunk.body.link table address := rfl
  have fields : ∀ entry ∈ copy.chunk.fieldsAt,
      (⟨copy, entry.1, entry.2⟩ : FieldSite).Linkable early late sect table :=
    fun entry member => linkable _ (List.mem_map_of_mem member)
  unfold Chunk.exactLength at sized
  unfold Chunk.Whole at whole
  unfold Chunk.fieldsAt at whole fields
  unfold emitContent at emitted ⊢
  cases isBody : copy.chunk.body with
  | data items =>
    simp only [isBody, Body.link, Body.integer?, forall_const] at emitted sized whole fields body
    obtain ⟨_, emitted, same⟩ := exists_of_bind_ok emitted
    cases same
    have links := emitItems_links address lateSymbols allowed found lies bounded (by simp [sized])
      whole fields emitted silent
    rw [UInt64.toNat_zero, Nat.add_zero] at links
    refine links.mono fun linked _ emits => ?_
    simp only [body, emits, bind, Except.bind, pure, Except.pure]
  | leb128 integer =>
    simp only [isBody, Body.link] at emitted fields body
    have linkableValue := fields (0, integer.value) (List.mem_singleton.mpr rfl)
    refine .of_same (emitInteger_relocs emitted) silent ?_
    simp only [body]
    rw [emitInteger_alike address linkableValue.alike, emitted]
  | instruction code =>
    simp only [isBody, Body.link, Body.integer?, forall_const] at emitted sized whole fields body
    obtain ⟨_, emitted, same⟩ := exists_of_bind_ok emitted
    cases same
    rw [isBody] at vacant
    have wholeOperand : ∀ operand ∈ code.operands, operand.field.Whole :=
      fun operand member => whole _ (List.mem_map_of_mem member)
    have links := @emitOperands_links early late table symbols sect copy start address lateSymbols
      allowed found length lies bounded code.operands code.bytes [] emission sized wholeOperand
      (fun operand member => fields _ (List.mem_map_of_mem member)) vacant.apart vacant.zero
      (by simp) emitted silent
    refine (links.links ?_).mono fun linked _ emits => ?_
    · intro operand member
      rw [← sized]
      exact (vacant.zero operand member).stop_le (wholeOperand operand member)
    · rw [paint_nil] at emits
      simp only [body, emits, bind, Except.bind, pure, Except.pure]
  | branch jump =>
    simp only [isBody, Body.link, Body.integer?, forall_const] at emitted sized whole fields body
    obtain ⟨_, emitted, same⟩ := exists_of_bind_ok emitted
    cases same
    have links := emitBranch_links address lateSymbols allowed found lies bounded
      (Nat.le_of_eq sized) (whole _ (List.mem_singleton.mpr rfl))
      (fields _ (List.mem_singleton.mpr rfl)) emitted silent
    refine links.mono fun linked _ emits => ?_
    have form : (copy.link table address).chunk.slot.near = copy.chunk.slot.near := rfl
    simp only [body, form, emits, bind, Except.bind, pure, Except.pure]
  | reserve | binary | align | org =>
    simp only [isBody, Body.link] at emitted body
    cases emitted
    refine .of_same rfl silent ?_
    simp only [body]
    rfl

end

end Object

end Assembler
