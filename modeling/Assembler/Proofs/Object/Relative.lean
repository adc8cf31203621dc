import Assembler.Proofs.Emission.Values
import Assembler.Proofs.Object.Content
import Assembler.Proofs.Relayout.Repetition

/-!
# Values that count from their own position

A value of data or of an operand that is given without a position to count from is settled once, at
its own offset in its chunk, by some layout of its section (`exists_brought`); what follows changes
neither the value nor its offset, and moves the section at most. The offset is found from the sizes
of the items before it, and emission moves it to each copy. All this meets in the emitted bytes:
`relative_to_own_copy` says that the bytes of the value in a copy hold the distance from those very
bytes.
-/

namespace Assembler

section

variable {table : SymbolTable} {sectionId index : Nat}

/-- Settling data leaves each field as it was, or settles it at its own offset. -/
theorem settleItems_value {items : List DataItem} {offset : UInt64} {place : Nat}
    {entry : UInt64 × Field} (entryAt : (DataItem.fieldsAt offset items)[place]? = some entry) :
    ∃ field, (DataItem.fieldsAt offset (settleItems table sectionId index offset items).1)[place]? =
        some (entry.1, field) ∧
      (field = entry.2 ∨ entry.2.settle table ⟨sectionId, index, entry.1⟩ = .ok field) := by
  induction items generalizing offset place with
  | nil => cases entryAt
  | cons item rest ih =>
    cases item with
    | bytes content => exact ih entryAt
    | field inner =>
      cases settles : inner.settle table ⟨sectionId, index, offset⟩ with
      | error halt => exact ⟨entry.2, by simpa only [settleItems, settles] using entryAt, .inl rfl⟩
      | ok settled =>
        rw [settleItems_cons settles, DataItem.fieldsAt, (Field.settle_eq settles).2.1]
        cases place with
        | zero =>
          cases entryAt
          exact ⟨settled, rfl, .inr settles⟩
        | succ place => exact ih entryAt

/-- Settling operands leaves each as it was, or settles it at its own offset. -/
theorem settleOperands_value {name : String} {number : Nat} {operands : List Operand} {place : Nat}
    {operand : Operand} (operandAt : operands[place]? = some operand) :
    ∃ field, (settleOperands table sectionId index name number operands).1[place]? =
        some { operand with field } ∧
      (field = operand.field ∨
        operand.field.settle table ⟨sectionId, index, operand.offset⟩ = .ok field) := by
  induction operands generalizing number place with
  | nil => cases operandAt
  | cons first rest ih =>
    cases settles : first.field.settle table ⟨sectionId, index, first.offset⟩ with
    | error halt =>
      exact ⟨operand.field, by simpa only [settleOperands, settles] using operandAt, .inl rfl⟩
    | ok settled =>
      rw [settleOperands_cons settles]
      cases place with
      | zero =>
        cases operandAt
        exact ⟨settled, rfl, .inr settles⟩
      | succ place => exact ih operandAt

/-- Settling a body leaves each value as it was, or settles it at its own offset. -/
theorem Body.settle_value {body : Body} {line : Int} {place : Nat} {offset : UInt64} {given : Field}
    (givenAt : body.valuesAt[place]? = some (offset, given)) :
    ∃ field, (body.settle table sectionId index line).1.valuesAt[place]? = some (offset, field) ∧
      (field = given ∨ given.settle table ⟨sectionId, index, offset⟩ = .ok field) := by
  cases body with
  | data items => exact settleItems_value givenAt
  | instruction code =>
    rw [Body.valuesAt, List.getElem?_map, Option.map_eq_some_iff] at givenAt
    obtain ⟨operand, operandAt, same⟩ := givenAt
    cases same
    obtain ⟨field, settledAt, settles⟩ := @settleOperands_value table sectionId index code.name 0
      code.operands place operand operandAt
    refine ⟨field, ?_, settles⟩
    simp only [Body.settle, Body.valuesAt, List.getElem?_map, settledAt, Option.map_some]
  | leb128 | reserve | binary | align | org | branch => cases givenAt

/-- A body that is settled to its end has no value left to settle. -/
theorem Body.settled_of_settle {body : Body} {line : Int}
    (done : (body.settle table sectionId index line).2 = none) :
    ∀ entry ∈ (body.settle table sectionId index line).1.valuesAt, entry.2.settled = true := by
  intro entry member
  cases body with
  | data items =>
    obtain ⟨_, _, _, settles⟩ := (settleItems_done done).2 entry.2
      (DataItem.mem_fields.mp (DataItem.mem_fields_of_mem_fieldsAt member))
    exact (Field.settle_eq settles).1
  | instruction code =>
    obtain ⟨operand, isOperand, rfl⟩ := List.mem_map.mp member
    obtain ⟨_, _, _, settles⟩ := (settleOperands_done done).2 operand isOperand
    exact (Field.settle_eq settles).1
  | leb128 | reserve | binary | align | org | branch => cases member

/-- Laying out a section leaves each value of a chunk as it was, or settles it. -/
theorem exists_laid_value {sect : Section} {maxPasses : Int} {layout : Layout}
    (lays : sect.layout table maxPasses sectionId = .ok layout) {chunk : Chunk}
    (chunkAt : sect.chunks[index]? = some chunk) :
    ∃ laid, layout.sect.chunks[index]? = some laid ∧
      ∀ (place : Nat) (offset : UInt64) (given : Field),
        chunk.body.valuesAt[place]? = some (offset, given) →
        ∃ field, laid.body.valuesAt[place]? = some (offset, field) ∧
          (field = given ∨ given.settle table ⟨sectionId, index, offset⟩ = .ok field) := by
  obtain ⟨prepared, prepares, rfl⟩ := layout_eq_ok_iff.mp lays
  have inRange := (List.getElem?_eq_some_iff.mp chunkAt).1
  rw [← length_recorded prepares (length_settle prepared sectionId maxPasses)] at inRange
  have laidAt := List.getElem?_eq_getElem inRange
  refine ⟨_, laidAt, fun place offset given givenAt => ?_⟩
  obtain ⟨before, slot, beforeAt, _, same⟩ := Section.getElem?_recorded laidAt
  rw [prepareAll_getElem? prepares, chunkAt, Option.map_some, Option.some.injEq] at beforeAt
  obtain ⟨body, _, prepared, settled | ⟨part, skip, isPart, _⟩⟩ :=
    chunk.prepare_body table sectionId index
  · rw [same, ← beforeAt, prepared, settled]
    exact Body.settle_value givenAt
  · rw [isPart] at givenAt
    cases givenAt

end

namespace Object

/-- A value is as it was given, or an object on the way has settled it at a position. -/
def Brings (first object : Object) (site : Location) (given field : Field) : Prop :=
  field = given ∨ ∃ settling, Relation.ReflTransGen Step first settling ∧
    Relation.ReflTransGen Step settling object ∧ given.settle settling.table site = .ok field

variable {first object next : Object} {id index : Nat}

/-- One more operation leaves a value as it is, or settles it. It settles no value twice. -/
theorem Brings.step {site : Location} {given now field : Field}
    (brings : first.Brings object site given now)
    (history : Relation.ReflTransGen Step first object) (step : Step object next)
    (becomes : field = now ∨ now.settle object.table site = .ok field) :
    first.Brings next site given field := by
  rcases brings with rfl | ⟨settling, before, since, settles⟩
  · rcases becomes with rfl | settles
    · exact .inl rfl
    · exact .inr ⟨object, history, .single step, settles⟩
  · have same : field = now := by
      rcases becomes with same | again
      · exact same
      · rw [Field.settle_of_settled (Field.settle_eq settles).1] at again
        exact (Except.ok.inj again).symm
    exact .inr ⟨settling, before, since.tail step, same ▸ settles⟩

/-- A chunk stays where it is, and its values keep their offsets. -/
theorem exists_brought (history : Relation.ReflTransGen Step first object) {start : Section}
    {source : Chunk} (opened : first.sections[id]? = some start)
    (sourceAt : start.chunks[index]? = some source) :
    ∃ sect chunk, object.sections[id]? = some sect ∧ sect.chunks[index]? = some chunk ∧
      ∀ (place : Nat) (offset : UInt64) (given : Field),
        source.body.valuesAt[place]? = some (offset, given) →
        ∃ field, chunk.body.valuesAt[place]? = some (offset, field) ∧
          first.Brings object ⟨id, index, offset⟩ given field := by
  induction history with
  | refl =>
    exact ⟨start, source, opened, sourceAt, fun _ _ given givenAt => ⟨given, givenAt, .inl rfl⟩⟩
  | @tail object next history step ih =>
    obtain ⟨sect, chunk, found, chunkAt, brought⟩ := ih
    have unchanged : ∀ (place : Nat) (offset : UInt64) (given : Field),
        source.body.valuesAt[place]? = some (offset, given) →
        ∃ field, chunk.body.valuesAt[place]? = some (offset, field) ∧
          first.Brings next ⟨id, index, offset⟩ given field := by
      intro place offset given givenAt
      obtain ⟨now, nowAt, brings⟩ := brought place offset given givenAt
      exact ⟨now, nowAt, brings.step history step (.inl rfl)⟩
    have change := step.stepAt id
    rw [found] at change
    generalize after : next.sections[id]? = found at change ⊢
    cases change with
    | appended sect body line repeats =>
      refine ⟨_, chunk, rfl, ?_, unchanged⟩
      rw [Section.append, List.getElem?_append_left (List.getElem?_eq_some_iff.mp chunkAt).1]
      exact chunkAt
    | laidOut lays =>
      obtain ⟨laid, laidAt, becomes⟩ := exists_laid_value lays chunkAt
      refine ⟨_, laid, rfl, laidAt, fun place offset given givenAt => ?_⟩
      obtain ⟨now, nowAt, brings⟩ := brought place offset given givenAt
      obtain ⟨field, fieldAt, settles⟩ := becomes place offset now nowAt
      exact ⟨field, fieldAt, brings.step history step settles⟩
    | @stays _ sectAfter stays =>
      obtain ⟨other, otherAt, body, _⟩ := stays.toKeeps.symm.exists_chunk chunkAt
      exact ⟨sectAfter, other, rfl, otherAt, body ▸ unchanged⟩

end Object

/-- The chunks without an error of a section that counts as laid out come from layouts, up to their
repeat counts. -/
def Section.Rooted (sect : Section) (id : Nat) : Prop :=
  sect.laidOut = true → ∀ (index : Nat) (chunk : Chunk), sect.chunks[index]? = some chunk →
    chunk.slot.error = none → ∃ table laid repeats,
      Nonempty (Origin table id index laid { chunk with repeats })

namespace Object

variable {first object next : Object} {id index : Nat}

/-- Every operation leaves the chunks of a section with their roots. -/
theorem Step.rooted (step : Step object next)
    (rooted : ∀ sect, object.sections[id]? = some sect → sect.Rooted id) :
    ∀ sect, next.sections[id]? = some sect → sect.Rooted id := by
  intro sect found
  have change := step.stepAt id
  rw [found] at change
  generalize was : object.sections[id]? = before at change
  intro laidOut index chunk chunkAt sound
  cases change with
  | opened | appended => cases laidOut
  | laidOut lays =>
    obtain ⟨origin, _⟩ := exists_origin_of_sound lays chunkAt sound
    exact ⟨_, _, chunk.repeats, ⟨origin⟩⟩
  | stays stays =>
    obtain ⟨other, otherAt, alike⟩ := stays.toKeeps.exists_uncounted chunkAt
    have error : other.uncounted.slot.error = none := alike ▸ sound
    obtain ⟨table, laid, repeats, origin⟩ :=
      rooted _ was (stays.laidOut ▸ laidOut) index other otherAt error
    have counted : ({ chunk.uncounted with repeats } : Chunk) =
        { other.uncounted with repeats } := by
      rw [alike]
    refine ⟨table, laid, repeats, ?_⟩
    change Nonempty (Origin table id index laid { chunk.uncounted with repeats })
    rw [counted]
    exact origin

/-- A section that was not laid out at first has rooted chunks ever after. -/
theorem rooted_of_history (history : Relation.ReflTransGen Step first object) {start : Section}
    (opened : first.sections[id]? = some start) (unlaid : start.laidOut = false) :
    ∀ sect, object.sections[id]? = some sect → sect.Rooted id := by
  induction history with
  | refl =>
    intro sect found laidOut
    rw [opened, Option.some.injEq] at found
    rw [← found, unlaid] at laidOut
    cases laidOut
  | tail _ step ih => exact step.rooted ih

/-- The integer that stands for a base: a position has its address. -/
def addresses (object : Object) : Base → Int
  | .place location => (object.addressAt location).toNat
  | .symbol _ => 0

/-- Emission finds the value of an expression at the addresses of its positions. -/
theorem address_eq_value {expr : Expr}
    (covers : ∀ location ∈ expr.places, object.covers location = true) :
    object.address expr = .ok (expr.value object.addresses) := by
  have weights : (fun term : Term => term.coefficient.toInt * object.addresses term.base) =
      object.weight := by
    funext term
    unfold addresses weight
    cases term.base with
    | place location => exact Int.mul_comm ..
    | symbol id => exact Int.mul_zero _
  rw [address_eq covers, Expr.value, weights]

end Object

/-- A field that is settled without a symbol has the value of the expression that was given, up to
the wrapping of coefficients. -/
theorem Field.settle_value {given field : Field} {table : SymbolTable} {site : Location}
    (fresh : given.settled = false) (settles : given.settle table site = .ok field)
    (absent : field.symbol = none) (assignment : Base → Int) :
    ∃ exact, table.Values assignment given.expr exact ∧
      field.expr.value assignment ≡ exact [ZMOD 2 ^ 64] := by
  unfold Field.settle at settles
  rw [if_neg (by simp [fresh])] at settles
  obtain ⟨expanded, expands, splits⟩ := exists_of_bind_ok settles
  obtain ⟨⟨expr, symbol⟩, parts, same⟩ := exists_of_bind_ok splits
  cases same
  cases absent
  rw [Field.split_eq, Field.foldlM_splitTerm_eq_ok_iff] at parts
  obtain ⟨rfl, unsymbolic⟩ := parts
  -- No symbol was taken out, so the terms are those of the expansion, put together again.
  have places : expanded.terms.filter Term.isPlace = expanded.terms := by
    rw [List.filter_eq_self]
    simpa using unsymbolic
  obtain ⟨weights, weighed, values⟩ := SymbolTable.exists_weights expands
  have terms : table.Weighed { terms := expanded.terms } weights :=
    ⟨weighed.ordered, weighed.unresolved, weighed.coefficients⟩
  have together := (SymbolTable.Weighed.ofInt table expanded.constant).add terms
  rw [zero_add] at together
  refine ⟨_, values assignment, ?_⟩
  have congruent := together.value_modEq assignment
  rw [Expr.add] at congruent
  simpa only [places, Expr.ofInt, Int.add_zero] using congruent

namespace Origin

variable {table : SymbolTable} {id index : Nat} {sect : Section} {chunk : Chunk}

variable (origin : Origin table id index sect chunk)
include origin

/-- A chunk that was laid out has settled values. -/
theorem settled_values :
    ∀ entry ∈ chunk.body.valuesAt, entry.2.settled = true := by
  intro entry member
  have plain : chunk.body.kind ≠ .binary := by
    intro part
    obtain ⟨given, isPart⟩ := Body.eq_binary part
    rw [isPart] at member
    cases member
  have settled := origin.settled
  rw [origin.body_eq plain] at settled
  have done := @Body.settled_of_settle table id index origin.source.body origin.source.line
    (by rw [settled])
  rw [settled] at done
  exact done entry member

/-- A chunk that was laid out has values of whole bytes. -/
theorem whole_values :
    ∀ entry ∈ chunk.body.valuesAt, entry.2.Whole := by
  have whole := origin.whole
  unfold Chunk.Whole Chunk.fieldsAt at whole
  intro entry member
  cases isBody : chunk.body with
  | data | instruction =>
    rw [isBody] at member
    simp only [isBody] at whole
    exact whole rfl entry member
  | leb128 | reserve | binary | align | org | branch =>
    rw [isBody] at member
    cases member

/-- A chunk with values is as long as its bytes are, if they are not too many. -/
theorem length_of_values (short : chunk.exactLength < 2 ^ 64) {entry : UInt64 × Field}
    (member : entry ∈ chunk.body.valuesAt) : chunk.slot.length.toNat = chunk.exactLength := by
  have plain : ∀ jump, chunk.body ≠ .branch jump := by
    intro jump isBranch
    rw [isBranch] at member
    cases member
  rw [origin.length_eq plain, UInt64.toNat_ofNat_of_lt' short]

end Origin

/-- A value that is to count from its own position, and was not settled yet, stands in a chunk of a
section that is not laid out. -/
structure Object.GivesRelative (object : Object) (id index place : Nat) (offset : UInt64)
    (given : Field) : Prop where
  source : ∃ sect chunk, object.sections[id]? = some sect ∧ sect.laidOut = false ∧
    sect.chunks[index]? = some chunk ∧ chunk.body.valuesAt[place]? = some (offset, given)
  relative : given.ipRelative = true
  free : given.origin = none
  fresh : given.settled = false

/-- A value without a position to count from is given as one that counts from its own. Whatever is
done afterwards, in a section that counts as laid out some layout has settled the value at its own
offset. If no symbol is left in it, its bytes in each copy hold the address of its expression less
the address of those bytes, and a value outside the range is reported. -/
theorem relative_to_own_copy {first object : Object} {id index place : Nat} {offset : UInt64}
    {given : Field} {sect : Section} {chunk : Chunk}
    (history : Relation.ReflTransGen Object.Step first object)
    (gives : first.GivesRelative id index place offset given)
    (ready : object.Emittable id index sect chunk) :
    ∃ settling field, Relation.ReflTransGen Object.Step first settling ∧
      Relation.ReflTransGen Object.Step settling object ∧
      given.settle settling.table ⟨id, index, offset⟩ = .ok field ∧
      chunk.body.valuesAt[place]? = some (offset, field) ∧
      (field.symbol = none → ∃ address exact,
        object.address field.expr = .ok address ∧
        settling.table.Values object.addresses given.expr exact ∧
        address ≡ exact [ZMOD 2 ^ 64] ∧
        ∀ symbols allowed, ∃ emission,
          object.emitChunk (.standard symbols allowed) id index = .ok (.ok emission) ∧
          ∀ number < chunk.count,
            let value := address - (sect.valueAddress chunk number offset).toNat
            (BitField.unsignedValue (chunk.valueBytes emission.bytes number offset given) : Int) =
                value % 2 ^ given.width.toNat ∧
              (¬ given.check.Takes given.width.toNat value →
                (sect.copySite id index chunk number).report given
                  (.bitField (.overflow value given.width given.check)) ∈
                    emission.diagnostics)) := by
  obtain ⟨start, source, opened, unlaid, sourceAt, givenAt⟩ := gives.source
  obtain ⟨_, _, foundToo, chunkAtToo, brought⟩ := Object.exists_brought history opened sourceAt
  rw [ready.found, Option.some.injEq] at foundToo
  subst foundToo
  rw [ready.chunkAt, Option.some.injEq] at chunkAtToo
  subst chunkAtToo
  obtain ⟨_, _, _, ⟨origin⟩⟩ := Object.rooted_of_history history opened unlaid sect ready.found
    ready.laidOut index chunk ready.chunkAt ready.sound
  obtain ⟨field, fieldAt, brings⟩ := brought place offset given givenAt
  have member := List.mem_of_getElem? fieldAt
  -- The value was not settled when it was given and is now, so something on the way has done it.
  have settled : field.settled = true := origin.settled_values _ member
  obtain ⟨settling, before, since, settles⟩ : ∃ settling,
      Relation.ReflTransGen Object.Step first settling ∧
      Relation.ReflTransGen Object.Step settling object ∧
      given.settle settling.table ⟨id, index, offset⟩ = .ok field := by
    refine brings.resolve_left ?_
    rintro rfl
    rw [gives.fresh] at settled
    cases settled
  refine ⟨settling, field, before, since, settles, fieldAt, fun absent => ?_⟩
  have covers := (ready.resolves field (Body.mem_fields_of_mem_valuesAt member)).positions
  obtain ⟨exact, values, congruent⟩ :=
    Field.settle_value gives.fresh settles absent object.addresses
  have shape := (Field.settle_eq settles).2.2 gives.fresh
  -- Settling is where the value got its own position to count from.
  have own : field.origin = some ⟨id, index, offset⟩ := by
    rw [shape]
    simp [gives.relative, gives.free]
  refine ⟨_, exact, Object.address_eq_value covers, values, congruent, fun symbols allowed => ?_⟩
  obtain ⟨emission, emitted, holds⟩ := Object.emitChunk_relative symbols allowed ready
    origin.whole_values (origin.length_of_values ready.short member) member absent own
    (Object.address_eq_value covers)
  refine ⟨emission, emitted, fun number inRange => ?_⟩
  have inCopy := holds number inRange
  generalize field.expr.value object.addresses = address at inCopy ⊢
  rw [shape] at inCopy
  exact inCopy

/-- The distance to the end of the section, in one byte. -/
def toTheEnd : Field where
  expr := .ofLocation ⟨0, 2, 0⟩
  width := 8
  signed := true
  ipRelative := true

/-- A byte and the distance to the end, twice, and then as many bytes as make the first of the two
distances too large. -/
def twoDistances : Object where
  sections :=
    [{ name := ".data"
       chunks :=
        [{ body := .data [.bytes [0xaa], .field toTheEnd], line := 1, repeats := some (.ofInt 2) },
          { body := .reserve (.ofInt 125) 1, line := 2 }] }]

/-- Laid out and moved, each copy holds the distance from its own byte, and the one that is too
large is reported. -/
theorem twoDistances_to_own_copy :
    ∃ laid layout chunk emission, twoDistances.layoutSection 0 = .ok (laid, layout) ∧
      layout.sect.chunks[0]? = some chunk ∧
      (laid.modifySection 0 fun sect => sect.moved 0x400000 false).emitChunk (.standard {} false)
        0 0 = .ok (.ok emission) ∧
      BitField.unsignedValue (chunk.valueBytes emission.bytes 0 1 toTheEnd) = 128 ∧
      BitField.unsignedValue (chunk.valueBytes emission.bytes 1 1 toTheEnd) = 126 ∧
      emission.diagnostics ≠ [] := by
  let settled : Field := { toTheEnd with origin := some ⟨0, 0, 1⟩, settled := true }
  let moved : Object → Object := fun laid =>
    laid.modifySection 0 fun sect => sect.moved 0x400000 false
  obtain ⟨⟨laid, layout⟩, success, checked⟩ := exists_ok_of_any (twoDistances.layoutSection 0)
    (p := fun result => ((moved result.1).sections[0]?).any fun sect =>
      (sect.chunks[0]?).any fun chunk => decide (
        (sect.laidOut = true ∧ chunk.slot.error = none ∧ chunk.count = 2 ∧
          (∀ field ∈ chunk.body.fields, (moved result.1).Resolves field) ∧ chunk.body.Vacant ∧
          chunk.exactLength < 2 ^ 64) ∧
        result.2.sect.chunks[0]? = some chunk ∧ chunk.body.valuesAt[0]? = some (1, settled) ∧
        (moved result.1).address settled.expr = .ok 0x400081 ∧
        sect.valueAddress chunk 0 1 = 0x400001 ∧ sect.valueAddress chunk 1 1 = 0x400003))
    (by decide +kernel)
  simp only [Option.any_eq_true, decide_eq_true_eq] at checked
  obtain ⟨sect, found, chunk, chunkAt, ⟨laidOut, sound, copies, resolves, vacant, short⟩, recorded,
    valueAt, addressed, firstAt, secondAt⟩ := checked
  have gives : twoDistances.GivesRelative 0 0 0 1 toTheEnd :=
    ⟨⟨_, _, rfl, rfl, rfl, by decide⟩, rfl, rfl, rfl⟩
  obtain ⟨_, field, _, _, _, fieldAt, written⟩ := relative_to_own_copy
    ((Relation.ReflTransGen.single (.layoutSection success)).tail (.move 0 0x400000 false)) gives
    ⟨found, laidOut, chunkAt, sound, resolves, vacant, short⟩
  obtain rfl : settled = field := congrArg Prod.snd (Option.some.inj (valueAt.symm.trans fieldAt))
  obtain ⟨address, _, addressedToo, _, _, emits⟩ := written rfl
  obtain rfl : 0x400081 = address := Except.ok.inj (addressed.symm.trans addressedToo)
  obtain ⟨emission, emitted, holds⟩ := emits {} false
  have first := holds 0 (by rw [copies]; decide)
  have second := holds 1 (by rw [copies]; decide)
  rw [firstAt] at first
  rw [secondAt] at second
  have tooLarge : ¬ toTheEnd.check.Takes toTheEnd.width.toNat
      (0x400081 - ((0x400001 : UInt64).toNat : Int)) := by decide
  refine ⟨laid, layout, chunk, emission, success, recorded, emitted, ?_, ?_, ?_⟩
  · exact Int.ofNat.inj (first.1.trans (by decide))
  · exact Int.ofNat.inj (second.1.trans (by decide))
  · exact List.ne_nil_of_mem (first.2 tooLarge)

end Assembler
