import Assembler.Proofs.Emission.Agreement
import Assembler.Proofs.Layout.Window

/-!
# Branches reach their targets

The displacement of a branch counts from the end of its copy. What is written for a copy is the
address of the target less the address of that end (`emitCopy_branch`), and it is read back as that
number if it is in range. Out of range it is reported, so that every branch of a program reaches its
target. A short branch that layout chose itself is in range in every copy: its window bounds the
distance from the first copy forwards and from the last one backwards (`short_window`).
-/

namespace Assembler

variable {number : Nat}

/-- A displacement that does not fit stops the output. -/
theorem CopySite.report_overflow {site : CopySite} {field : Field} (jumps : field.jump = true)
    {value : Int} {width : UInt64} {check : RangeCheck} :
    (site.report field (.bitField (.overflow value width check))).severity = .error := by
  simp [CopySite.report, Error.causes, jumps]

section

variable {object : Object} {sect : Section} {symbols : SymbolTable} {id index : Nat} {chunk : Chunk}
  {jump : Branch} (table : SymbolTable) (allowRelocs : Bool)

/-- The address of the end of a copy, in unbounded integers. -/
def Section.copyEnd (sect : Section) (chunk : Chunk) (number : Nat) : Nat :=
  sect.base.toNat + chunk.slot.offset.toNat + (number + 1) * chunk.slot.length.toNat

/-- A copy of a branch jumps to the target: the displacement behind its opcode, read as a signed
number, leads from the end of the copy to the address of the target. -/
def Object.Reaches (object : Object) (sect : Section) (chunk : Chunk) (jump : Branch)
    (bytes : List UInt8) (number : Nat) : Prop :=
  ∃ address, object.address jump.target.expr = .ok address ∧
    BitField.signedValue (bytes.extract
      (number * chunk.slot.length.toNat + (jump.opcode chunk.slot.near).length)
      ((number + 1) * chunk.slot.length.toNat)) + sect.copyEnd chunk number = address

/-- Every copy ends inside its chunk. -/
theorem Chunk.copy_le_extent (inRange : number < chunk.count) :
    (number + 1) * chunk.slot.length.toNat ≤ chunk.extent := by
  rw [Chunk.extent, Nat.mul_comm]
  exact Nat.mul_le_mul_left _ inRange

section

variable (clean : sect.Clean symbols id) (bounded : sect.exactSize < 2 ^ 63)
  (chunkAt : sect.chunks[index]? = some chunk) (inRange : number < chunk.count)
include clean bounded chunkAt inRange

/-- Every copy ends inside its section. -/
theorem Section.Clean.copyEnd_le :
    sect.copyEnd chunk number ≤ sect.base.toNat + sect.exactSize := by
  have inside := clean.offset_add_extent_le bounded chunkAt
  have upTo := Chunk.copy_le_extent inRange
  unfold Section.copyEnd
  omega

/-- The offset of a copy from the start of its chunk. -/
theorem Section.Clean.toNat_copyOffset :
    (UInt64.ofNat number * chunk.slot.length).toNat = number * chunk.slot.length.toNat := by
  have inside := clean.offset_add_extent_le bounded chunkAt
  have upTo := Chunk.copy_le_extent inRange
  have word : (UInt64.ofNat number).toNat = number := by
    have limit := chunk.slot.copies.toInt_lt
    unfold Chunk.count at inRange
    exact UInt64.toNat_ofNat_of_lt' (by simp only [UInt64.size]; omega)
  rw [Nat.succ_mul] at upTo
  rw [UInt64.toNat_mul, word]
  exact Nat.mod_eq_of_lt (by omega)

end

/-- The start of a copy is the address that the displacement of a branch is counted from. -/
theorem originAddress_branch (clean : sect.Clean symbols id)
    (found : object.sections[id]? = some sect)
    (bounded : sect.base.toNat + sect.exactSize < 2 ^ 63)
    (chunkAt : sect.chunks[index]? = some chunk) {field : Field}
    (counted : field.origin = some ⟨id, index, 0⟩) (inRange : number < chunk.count) :
    ∃ address, object.originAddress (sect.copySite id index chunk number) field = .ok address ∧
      address.toNat + chunk.slot.length.toNat = sect.copyEnd chunk number := by
  have slotAt : sect.slots[index]? = some chunk.slot := by
    rw [Section.slots, List.getElem?_map, chunkAt, Option.map_some]
  have moved : (sect.copySite id index chunk number).moveOrigin ⟨id, index, 0⟩ =
      ⟨id, index, 0 + UInt64.ofNat number * chunk.slot.length⟩ := by
    simp [CopySite.moveOrigin, Section.copySite]
  have inside := clean.copyEnd_le (by omega) chunkAt inRange
  have product := clean.toNat_copyOffset (by omega) chunkAt inRange
  unfold Section.copyEnd at inside ⊢
  rw [Nat.succ_mul] at inside ⊢
  refine ⟨sect.base + (chunk.slot.offset + (0 + UInt64.ofNat number * chunk.slot.length)), ?_, ?_⟩
  · rw [Object.originAddress, counted]
    dsimp only
    rw [moved, locationAddress_of_section found rfl, Section.offsetOf, offsetAmong, slotAt]
  · rw [UInt64.zero_add, UInt64.toNat_add, UInt64.toNat_add, product,
      Nat.mod_eq_of_lt (by omega), Nat.mod_eq_of_lt (by omega)]
    omega

/-- The length of a form is subtracted from its target. -/
theorem address_displacement {length : UInt64} (small : length.toNat < 2 ^ 63) {near : Bool}
    (same : jump.formLength near = length) {address : Int}
    (value : object.address jump.target.expr = .ok address) :
    object.address (jump.displacement near).expr = .ok (address - length.toNat) := by
  have negated : (-length.toInt64).toInt = -length.toNat := by
    rw [Int64.toInt_neg, toInt_toInt64 small]
    exact Int.bmod_eq_of_le (by omega) (by omega)
  rw [Branch.displacement, Object.address_addInt, value, same, negated]
  rfl

/-- A copy of a branch: the opcode of its form, and the address of the target less that of the end
of the copy. -/
theorem emitCopy_branch (clean : sect.Clean symbols id) (found : object.sections[id]? = some sect)
    (bounded : sect.base.toNat + sect.exactSize < 2 ^ 63)
    (chunkAt : sect.chunks[index]? = some chunk) (isBranch : chunk.body = .branch jump)
    (absent : jump.target.symbol = none) {address : Int}
    (value : object.address jump.target.expr = .ok address) (inRange : number < chunk.count) :
    ∃ copy, object.emitCopy (.standard table allowRelocs) (sect.copySite id index chunk number) =
        .ok (copy, none) ∧
      copy.bytes = jump.opcode chunk.slot.near ++ (BitField.write
        (List.replicate (jump.width chunk.slot.near / 8).toNat 0)
        (address - sect.copyEnd chunk number) (jump.width chunk.slot.near) 0
        jump.target.check).1 ∧
      copy.diagnostics = ((BitField.write
        (List.replicate (jump.width chunk.slot.near / 8).toNat 0)
        (address - sect.copyEnd chunk number) (jump.width chunk.slot.near) 0
        jump.target.check).2.map fun problem =>
          (sect.copySite id index chunk number).report (jump.displacement chunk.slot.near)
            (.bitField problem)).toList := by
  obtain ⟨origin⟩ := clean.origin chunkAt
  obtain ⟨length, small⟩ := clean.toNat_length (by omega) chunkAt (by omega)
  have counted : (jump.displacement chunk.slot.near).origin = some ⟨id, index, 0⟩ :=
    (origin.branch_target isBranch).1
  have unsymbolic : (jump.displacement chunk.slot.near).symbol = none := absent
  obtain ⟨start, started, ends⟩ :=
    originAddress_branch clean found bounded chunkAt counted inRange
  have displaced :=
    address_displacement (length ▸ small) (clean.branch_length chunkAt isBranch).symm value
  obtain ⟨written, wrote, bytes, diagnostics⟩ := Object.emitField_written table allowRelocs
    unsymbolic displaced started (UInt64.ofNat (jump.opcode chunk.slot.near).length)
    (List.replicate (jump.width chunk.slot.near / 8).toNat 0)
  have counts : address - chunk.slot.length.toNat - start.toNat =
      address - sect.copyEnd chunk number := by omega
  rw [counts] at bytes diagnostics
  have content : object.emitContent (.standard table allowRelocs)
      (sect.copySite id index chunk number) =
        .ok ((Emission.ofBytes (jump.opcode chunk.slot.near)).append written, none) := by
    unfold Object.emitContent
    simp only [Section.copySite, isBranch, Object.emitBranch_eq]
    unfold Section.copySite at wrote
    rw [wrote]
    rfl
  have whole : ((Emission.ofBytes (jump.opcode chunk.slot.near)).append written).bytes.length =
      chunk.slot.length.toNat := by
    rw [length, Chunk.exactLength, isBranch]
    simp only [Emission.append, Emission.ofBytes, bytes, List.length_append, BitField.length_write,
      List.length_replicate, Branch.exactLength]
  refine ⟨(Emission.ofBytes (jump.opcode chunk.slot.near)).append written, ?_, ?_, ?_⟩
  · rw [Object.emitCopy_eq, content]
    exact if_pos whole
  · exact congrArg (jump.opcode chunk.slot.near ++ ·) bytes
  · exact diagnostics

/-- The target of a branch has an address if a copy of the branch was emitted. -/
theorem address_of_emitCopy (isBranch : chunk.body = .branch jump) {output : Output}
    {copy : Emission × Option Error}
    (emitted : object.emitCopy output (sect.copySite id index chunk number) = .ok copy) :
    ∃ address, object.address jump.target.expr = .ok address := by
  rw [Object.emitCopy_eq] at emitted
  obtain ⟨content, emits, _⟩ := exists_of_bind_ok emitted
  simp only [Object.emitContent, Section.copySite, isBranch] at emits
  obtain ⟨emission, branch, _⟩ := exists_of_bind_ok emits
  rw [Object.emitBranch_eq] at branch
  cases value : object.address jump.target.expr with
  | ok address => exact ⟨address, rfl⟩
  | error reference =>
    have displaced :
        object.address (jump.displacement chunk.slot.near).expr = .error reference := by
      rw [Branch.displacement, Object.address_addInt, value]
      rfl
    simp [Object.emitField, displaced, bind, Except.bind, Except.map] at branch

/-- The displacement of a copy that nothing stops is read back. -/
theorem signedValue_displacement (clean : sect.Clean symbols id)
    (found : object.sections[id]? = some sect)
    (bounded : sect.base.toNat + sect.exactSize < 2 ^ 63)
    (chunkAt : sect.chunks[index]? = some chunk) (isBranch : chunk.body = .branch jump)
    (absent : jump.target.symbol = none) (loud : jump.target.quiet = false)
    (inRange : number < chunk.count) {copy : Emission} (silent : copy.Silent)
    (emitted : object.emitCopy (.standard table allowRelocs)
      (sect.copySite id index chunk number) = .ok (copy, none)) :
    ∃ address, object.address jump.target.expr = .ok address ∧
      BitField.signedValue (copy.bytes.drop (jump.opcode chunk.slot.near).length) =
        address - sect.copyEnd chunk number := by
  obtain ⟨address, value⟩ := address_of_emitCopy isBranch emitted
  obtain ⟨other, otherEmitted, bytes, diagnostics⟩ := emitCopy_branch table allowRelocs clean found
    bounded chunkAt isBranch absent value inRange
  rw [emitted] at otherEmitted
  cases otherEmitted
  obtain ⟨origin⟩ := clean.origin chunkAt
  obtain ⟨_, signed, isJump⟩ := origin.branch_target isBranch
  obtain ⟨positive, whole⟩ := origin.branch_width isBranch chunk.slot.near
  have check : jump.target.check = .signed := by
    simp [Field.check, loud, signed]
  rw [check, BitField.write_whole whole] at diagnostics
  have fits : BitField.fits (address - sect.copyEnd chunk number)
      (jump.width chunk.slot.near).toNat .signed = true := by
    by_contra wide
    rw [if_neg wide] at diagnostics
    unfold Emission.Silent at silent
    rw [diagnostics] at silent
    have reported := silent _ (List.mem_singleton.mpr rfl)
    have jumps : (jump.displacement chunk.slot.near).jump = true := isJump
    dsimp only at reported
    rw [CopySite.report_overflow jumps] at reported
    exact absurd reported (by decide)
  refine ⟨address, value, ?_⟩
  rw [bytes, List.drop_left]
  exact BitField.signedValue_write whole positive fits

/-- A displacement of a byte fits, whether or not it is checked. -/
theorem fits_byte {field : Field} (signed : field.signed = true) {value : Int}
    (low : -128 ≤ value) (high : value ≤ 127) : BitField.fits value 8 field.check = true := by
  unfold Field.check
  rw [signed]
  split
  · rfl
  · exact BitField.fits_signed_iff.mpr ⟨low, Int.lt_of_le_of_lt high (by decide)⟩

/-- A short branch that layout chose is emitted without a report in every copy. -/
theorem emitChunk_short (clean : sect.Clean symbols id) (found : object.sections[id]? = some sect)
    (laidOut : sect.laidOut = true) (bounded : sect.base.toNat + sect.exactSize < 2 ^ 63)
    (chunkAt : sect.chunks[index]? = some chunk) (isBranch : chunk.body = .branch jump)
    (auto : jump.form = .auto) (short : chunk.slot.near = false)
    (apart : jump.shortLength.toNat ≠ 2 ^ 63 - 128)
    (word : isWord jump.target.expr.coefficientSum = true)
    (unwrapped : ∀ location ∈ jump.target.expr.places,
      sect.base.toNat + (sect.offsetOf location).toNat < 2 ^ 64) :
    ∃ emission, object.emitChunk (.standard table allowRelocs) id index = .ok (.ok emission) ∧
      emission.diagnostics = [] := by
  obtain ⟨origin⟩ := clean.origin chunkAt
  obtain ⟨counted, signed, _⟩ := origin.branch_target isBranch
  obtain ⟨_, whole⟩ := origin.branch_width isBranch chunk.slot.near
  obtain ⟨distance, measured, low, high⟩ :=
    short_window clean (by omega) chunkAt isBranch auto short apart
  obtain ⟨inside, exactly⟩ := Relaxation.distance_eq_some_iff.mp measured
  have absent : jump.target.symbol = none := by
    obtain ⟨positions, known, _⟩ := Field.isDistanceIn_iff.mp inside
    exact (Field.positions_eq_some known).1
  have start : sect.offsetOf ⟨id, index, 0⟩ = chunk.slot.offset := by
    simp [Section.offsetOf, offsetAmong, Section.slots, chunkAt]
  have value := address_eq_exactValue found inside word unwrapped
  rw [counted, exactly, Option.elim_some, start] at value
  have copies : ∀ place < chunk.count, ∃ copy, object.emitCopy (.standard table allowRelocs)
      (sect.copySite id index chunk (0 + place)) = .ok (copy, none) ∧ copy.diagnostics = [] := by
    intro place inRange
    obtain ⟨copy, emitted, _, diagnostics⟩ := emitCopy_branch table allowRelocs clean found bounded
      chunkAt isBranch absent value inRange
    -- Forwards the first copy is the farthest from the target, and backwards the last one is.
    have last := Chunk.copy_le_extent inRange
    have first : chunk.slot.length.toNat ≤ (place + 1) * chunk.slot.length.toNat :=
      Nat.le_mul_of_pos_left _ (Nat.succ_pos place)
    have fits : BitField.fits
        (distance.toInt + (sect.base.toNat + chunk.slot.offset.toNat) - sect.copyEnd chunk place)
        (jump.width chunk.slot.near).toNat jump.target.check = true := by
      rw [short]
      unfold Section.copyEnd
      exact fits_byte signed (by omega) (by omega)
    rw [BitField.write_whole whole, if_pos fits] at diagnostics
    rw [Nat.zero_add]
    exact ⟨copy, emitted, diagnostics⟩
  obtain ⟨emission, emitted, quiet⟩ := Object.emitCopies_ok
    (fun copy => copy.diagnostics = []) (fun _ emission => emission.diagnostics = []) rfl
    (fun {_ first others} one several => by
      rw [Emission.append, one, several, List.append_nil]) copies
  have sound := clean.error_none chunk (List.mem_of_getElem? chunkAt)
  exact ⟨emission, (Object.emitChunk_ok_iff found laidOut chunkAt sound).mpr emitted, quiet⟩

/-- What is left of a slice behind its first bytes. -/
theorem drop_extract (bytes : List UInt8) (start stop skip : Nat) :
    (bytes.extract start stop).drop skip = bytes.extract (start + skip) stop := by
  rw [List.extract_eq_take_drop, List.extract_eq_take_drop, List.drop_take, List.drop_drop,
    Nat.sub_sub]

/-- Every copy of a branch reaches the target, in a chunk that nothing stops. -/
theorem reaches_of_emitChunk (clean : sect.Clean symbols id)
    (found : object.sections[id]? = some sect) (laidOut : sect.laidOut = true)
    (bounded : sect.base.toNat + sect.exactSize < 2 ^ 63)
    (chunkAt : sect.chunks[index]? = some chunk) (isBranch : chunk.body = .branch jump)
    (absent : jump.target.symbol = none) (loud : jump.target.quiet = false) {emission : Emission}
    (emitted : object.emitChunk (.standard table allowRelocs) id index = .ok (.ok emission))
    (silent : emission.Silent) (inRange : number < chunk.count) :
    object.Reaches sect chunk jump emission.bytes number := by
  have sound := clean.error_none chunk (List.mem_of_getElem? chunkAt)
  obtain ⟨copy, silentCopy, emittedCopy, slice⟩ := Object.emitCopies_slice
    ((Object.emitChunk_ok_iff found laidOut chunkAt sound).mp emitted) silent inRange
  obtain ⟨address, value, reads⟩ := signedValue_displacement table allowRelocs clean found bounded
    chunkAt isBranch absent loud inRange silentCopy emittedCopy
  refine ⟨address, value, ?_⟩
  rw [← drop_extract, slice, reads]
  exact Int.sub_add_cancel _ _

/-- Every copy of a branch of a program reaches the target, and a short branch that layout chose
itself is emitted without a report, however often it is repeated. The length that is left out is
that of an opcode with `2 ^ 63 - 129` bytes: its window ends at the distance that stands in for an
unknown one. -/
theorem branch_reaches_target {source laid : Object} {layout : Layout}
    (success : source.layoutSection id = .ok (laid, layout)) (silent : layout.error = none)
    (carries : object.Carries id layout.sect sect)
    (bounded : sect.base.toNat + sect.exactSize < 2 ^ 63)
    (chunkAt : sect.chunks[index]? = some chunk) (isBranch : chunk.body = .branch jump) :
    (∀ emitted program, object.emitSection (.standard table allowRelocs) id = .ok emitted →
      emitted.program = .ok program → jump.target.symbol = none → jump.target.quiet = false →
        ∃ emission, object.emitChunk (.standard table allowRelocs) id index = .ok (.ok emission) ∧
          (sect.noBits = false →
            program.code.extract chunk.slot.offset.toNat chunk.slot.next.toNat = emission.bytes) ∧
          ∀ number < chunk.count, object.Reaches sect chunk jump emission.bytes number) ∧
      (jump.form = .auto → chunk.slot.near = false → jump.shortLength.toNat ≠ 2 ^ 63 - 128 →
        isWord jump.target.expr.coefficientSum = true →
        (∀ location ∈ jump.target.expr.places,
          sect.base.toNat + (sect.offsetOf location).toNat < 2 ^ 64) →
        ∃ emission, object.emitChunk (.standard table allowRelocs) id index = .ok (.ok emission) ∧
          emission.diagnostics = []) := by
  obtain ⟨clean, laidOut⟩ := carries.clean success silent
  refine ⟨?_,
    emitChunk_short table allowRelocs clean carries.found laidOut bounded chunkAt isBranch⟩
  intro emitted program emits accepted absent loud
  obtain ⟨parts, _, _, _, each⟩ :=
    Object.emitSection_parts carries.found clean.error_none emits accepted
  obtain ⟨emission, _, silentEmission, emitsChunk⟩ := each index chunk chunkAt
  refine ⟨emission, emitsChunk, fun bits => ?_, fun number inRange => ?_⟩
  · have renders := renders_of_emitSection clean carries.found (by omega) emits accepted
    obtain ⟨other, otherEmits, slice⟩ := renders.code bits index chunk chunkAt
    rw [emitsChunk] at otherEmits
    cases otherEmits
    exact slice
  · exact reaches_of_emitChunk table allowRelocs clean carries.found laidOut bounded chunkAt
      isBranch absent loud emitsChunk silentEmission inRange

end

/-- A jump to a chunk of the first section. -/
def jumpTo (chunk : Nat) : Branch := Machine.jmp (.ofLocation ⟨0, chunk, 0⟩)

/-- Three copies of a jump back to the start, and a jump over 200 bytes. -/
def jumps : Object where
  sections :=
    [{ name := ".text"
       chunks :=
        [{ body := .reserve (.ofInt 10) 1 },
          { body := .branch (jumpTo 0), repeats := some (.ofInt 3) },
          { body := .branch (jumpTo 4) },
          { body := .reserve (.ofInt 200) 1 }] }]

/-- The first jumps, as layout settles them. -/
def backward : Branch := ((jumpTo 0).settle {} 0 1).1

/-- The last jump, as layout settles it. -/
def forward : Branch := ((jumpTo 4).settle {} 0 2).1

/-- All four jumps reach their targets, at another base than that of the layout, and the three short
ones are emitted without a report. -/
theorem jumps_reach :
    ∃ laid layout emitted program, ∃ object : Object, ∃ sect : Section, ∃ short near : Chunk,
      jumps.layoutSection 0 = .ok (laid, layout) ∧ layout.error = none ∧
        object.Carries 0 layout.sect sect ∧ sect.base = 0x400000 ∧
        object.emitSection (.standard {} false) 0 = .ok emitted ∧ emitted.program = .ok program ∧
        (sect.chunks[1]? = some short ∧ short.body = .branch backward ∧ short.slot.near = false ∧
          short.count = 3 ∧
          ∃ emission, object.emitChunk (.standard {} false) 0 1 = .ok (.ok emission) ∧
            emission.diagnostics = [] ∧
            ∀ number < short.count, object.Reaches sect short backward emission.bytes number) ∧
        sect.chunks[2]? = some near ∧ near.body = .branch forward ∧ near.slot.near = true ∧
          near.count = 1 ∧
          ∃ emission, object.emitChunk (.standard {} false) 0 2 = .ok (.ok emission) ∧
            ∀ number < near.count, object.Reaches sect near forward emission.bytes number := by
  obtain ⟨⟨laid, layout⟩, success, silent, bounded, ⟨short, shortAt, isBackward, isShort, thrice⟩,
      ⟨near, nearAt, isForward, isNear, once⟩, unwrapped, emits⟩ :=
    exists_ok_of_any (jumps.layoutSection 0)
      (p := fun result => result.2.error = none ∧
        0x400000 + (result.2.sect.rebase 0x400000).exactSize < 2 ^ 63 ∧
        (∃ short : Chunk, short ∈ result.2.sect.chunks[1]? ∧ short.body = .branch backward ∧
          short.slot.near = false ∧ short.count = 3) ∧
        (∃ near : Chunk, near ∈ result.2.sect.chunks[2]? ∧ near.body = .branch forward ∧
          near.slot.near = true ∧ near.count = 1) ∧
        (∀ location ∈ backward.target.expr.places,
          0x400000 + ((result.2.sect.rebase 0x400000).offsetOf location).toNat < 2 ^ 64) ∧
        (result.1.modifySection 0 (·.rebase 0x400000)).emits (.standard {} false) 0 = true)
      (by decide +kernel)
  obtain ⟨_, _, _, found, _⟩ := layoutSection_ok success
  have carries := Object.carries_rebase found 0x400000
  obtain ⟨emitted, program, emission, accepted⟩ := Object.exists_program emits
  obtain ⟨reachesShort, quietShort⟩ :=
    branch_reaches_target {} false success silent carries bounded shortAt isBackward
  obtain ⟨reachesNear, _⟩ :=
    branch_reaches_target {} false success silent carries bounded nearAt isForward
  obtain ⟨shortEmission, shortEmitted, _, reachesBackward⟩ :=
    reachesShort emitted program emission accepted (by decide +kernel) (by decide +kernel)
  obtain ⟨nearEmission, nearEmitted, _, reachesForward⟩ :=
    reachesNear emitted program emission accepted (by decide +kernel) (by decide +kernel)
  obtain ⟨other, otherEmitted, quiet⟩ := quietShort (by decide +kernel) isShort
    (by decide +kernel) (by decide +kernel) unwrapped
  rw [shortEmitted] at otherEmitted
  cases otherEmitted
  exact ⟨laid, layout, emitted, program, _, _, short, near, success, silent, carries, rfl,
    emission, accepted,
    ⟨shortAt, isBackward, isShort, thrice, shortEmission, shortEmitted, quiet, reachesBackward⟩,
    nearAt, isForward, isNear, once, nearEmission, nearEmitted, reachesForward⟩

end Assembler
