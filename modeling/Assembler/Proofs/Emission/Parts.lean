import Assembler.Proofs.Emission.Content
import Mathlib.Algebra.BigOperators.Group.List.Lemmas

/-!
# The parts of an emission

The bytes of a chunk are those of its copies, one behind the other, and the bytes of a section are
those of its chunks, as long as no report stops the output. Each part is found again at the sum of
the lengths before it.
-/

namespace Assembler

variable {emission : Emission} {remaining number : Nat}

/-- No report stops the output. -/
def Emission.Silent (emission : Emission) : Prop :=
  ∀ diagnostic ∈ emission.diagnostics, diagnostic.severity.isError = false

/-- The errors of reports are none only if no report stops the output. -/
theorem Emission.silent_iff :
    emission.Silent ↔ Diagnostic.errors emission.diagnostics = none := by
  simp [Emission.Silent, Diagnostic.errors, Error.all_eq_none_iff]

/-- Emissions are silent together if each of them is. -/
theorem Emission.silent_append {first second : Emission} :
    (first.append second).Silent ↔ first.Silent ∧ second.Silent := by
  simp [Emission.Silent, Emission.append, or_imp, forall_and]

/-- A part of a concatenation, at the sum of the lengths before it. -/
theorem extract_flatten {parts : List (List UInt8)} {lengths : List Nat}
    (sizes : parts.map List.length = lengths) {index : Nat} {part : List UInt8}
    (found : parts[index]? = some part) :
    parts.flatten.extract (lengths.take index).sum ((lengths.take index).sum + part.length) =
      part := by
  obtain ⟨inRange, same⟩ := List.getElem?_eq_some_iff.mp found
  have slice := List.drop_take_succ_flatten_eq_getElem parts index inRange
  have step : ((parts.map List.length).take (index + 1)).sum =
      ((parts.map List.length).take index).sum + part.length := by
    rw [List.take_add_one, List.getElem?_map, found]
    simp
  rw [step, same] at slice
  rw [List.extract_eq_take_drop, ← List.drop_take, ← sizes]
  exact slice

/-- The site of a copy of a chunk. -/
def Section.copySite (sect : Section) (id index : Nat) (chunk : Chunk) (number : Nat) : CopySite :=
  ⟨id, sect.name, index, chunk, UInt64.ofNat number * chunk.slot.length⟩

namespace Object

section

variable {object : Object} {output : Output} {sect : Section} {id index : Nat} {chunk : Chunk}

/-- A copy that breaks no promise is emitted before the others. -/
theorem emitCopies_cons {first others : Emission}
    (emitted : object.emitCopy output (sect.copySite id index chunk number) = .ok (first, none))
    (later : object.emitCopies output sect id index chunk remaining (number + 1) = .ok others) :
    object.emitCopies output sect id index chunk (remaining + 1) number =
      .ok (first.append others) := by
  unfold Section.copySite at emitted
  simp only [emitCopies, emitted, later, bind, Except.bind, pure, Except.pure]

/-- Copies that break no promise are emitted one behind the other. What holds of each of them
carries over to all together, if it does so for one behind others. -/
theorem emitCopies_ok (each : Emission → Prop) (all : Nat → Emission → Prop) (empty : all 0 {})
    (append : ∀ {count : Nat} {first others : Emission}, each first → all count others →
      all (count + 1) (first.append others)) (copies : ∀ place < remaining, ∃ copy,
      object.emitCopy output (sect.copySite id index chunk (number + place)) = .ok (copy, none) ∧
        each copy) :
    ∃ emission, object.emitCopies output sect id index chunk remaining number = .ok emission ∧
      all remaining emission := by
  induction remaining generalizing number with
  | zero => exact ⟨{}, rfl, empty⟩
  | succ remaining ih =>
    obtain ⟨first, emitted, holds⟩ := copies 0 (Nat.succ_pos _)
    have rest : ∀ place < remaining, ∃ copy,
        object.emitCopy output (sect.copySite id index chunk (number + 1 + place)) =
          .ok (copy, none) ∧ each copy := by
      intro place inRange
      have next := copies (place + 1) (Nat.succ_lt_succ inRange)
      rwa [← Nat.add_assoc, Nat.add_right_comm] at next
    obtain ⟨others, later, holdsLater⟩ := ih rest
    exact ⟨first.append others, emitCopies_cons emitted later, append holds holdsLater⟩

/-- Copies of an emission that nothing stops: the first, then the others. -/
theorem exists_of_emitCopies_succ
    (success : object.emitCopies output sect id index chunk (remaining + 1) number = .ok emission)
    (silent : emission.Silent) :
    ∃ first others, object.emitCopy output (sect.copySite id index chunk number) =
        .ok (first, none) ∧
      object.emitCopies output sect id index chunk remaining (number + 1) = .ok others ∧
      emission = first.append others ∧ first.Silent ∧ others.Silent := by
  obtain ⟨⟨first, error⟩, emitted, rest⟩ := exists_of_bind_ok success
  cases error with
  | some error =>
    cases rest
    have stops := silent _ (List.mem_append_right _ (List.mem_singleton.mpr rfl))
    cases stops
  | none =>
    obtain ⟨others, later, same⟩ := exists_of_bind_ok rest
    cases same
    exact ⟨first, others, emitted, later, rfl, Emission.silent_append.mp silent⟩

/-- The copies of an emission that nothing stops. -/
theorem emitCopies_parts
    (success : object.emitCopies output sect id index chunk remaining number = .ok emission)
    (silent : emission.Silent) :
    ∃ copies : List Emission, emission.bytes = (copies.map Emission.bytes).flatten ∧
      (copies.map Emission.bytes).map List.length =
        List.replicate remaining chunk.slot.length.toNat ∧
      ∀ place copy, copies[place]? = some copy → copy.Silent ∧
        object.emitCopy output (sect.copySite id index chunk (number + place)) =
          .ok (copy, none) := by
  induction remaining generalizing number emission with
  | zero =>
    cases success
    exact ⟨[], rfl, rfl, by simp⟩
  | succ remaining ih =>
    obtain ⟨first, others, emitted, later, rfl, silentFirst, silentOthers⟩ :=
      exists_of_emitCopies_succ success silent
    obtain ⟨copies, bytes, sizes, parts⟩ := ih later silentOthers
    have size : first.bytes.length = chunk.slot.length.toNat := length_of_emitCopy emitted
    refine ⟨first :: copies, ?_, ?_, ?_⟩
    · rw [List.map_cons, List.flatten_cons, ← bytes]
      rfl
    · rw [List.map_cons, List.map_cons, sizes, size, List.replicate_succ]
    · intro place copy found
      cases place with
      | zero =>
        cases found
        exact ⟨silentFirst, emitted⟩
      | succ place =>
        have next := parts place copy found
        rwa [Nat.add_right_comm] at next

/-- The bytes of one copy are what emitting that copy gives. -/
theorem emitCopies_slice
    (success : object.emitCopies output sect id index chunk remaining 0 = .ok emission)
    (silent : emission.Silent) (inRange : number < remaining) :
    ∃ copy : Emission, copy.Silent ∧
      object.emitCopy output (sect.copySite id index chunk number) = .ok (copy, none) ∧
      emission.bytes.extract (number * chunk.slot.length.toNat)
        ((number + 1) * chunk.slot.length.toNat) = copy.bytes := by
  obtain ⟨copies, bytes, sizes, parts⟩ := emitCopies_parts success silent
  have count : copies.length = remaining := by
    simpa using congrArg List.length sizes
  have copyAt := List.getElem?_eq_getElem (count ▸ inRange : number < copies.length)
  obtain ⟨silentCopy, emitted⟩ := parts number _ copyAt
  rw [Nat.zero_add] at emitted
  have bytesAt : (copies.map Emission.bytes)[number]? = some copies[number].bytes := by
    rw [List.getElem?_map, copyAt, Option.map_some]
  have slice := extract_flatten sizes bytesAt
  rw [List.take_replicate, Nat.min_eq_left (Nat.le_of_lt inRange), List.sum_replicate_nat,
    length_of_emitCopy emitted, ← bytes] at slice
  refine ⟨_, silentCopy, emitted, ?_⟩
  rw [Nat.succ_mul]
  exact slice

/-- Copies that break a promise are reported as having the wrong length. -/
theorem emitCopies_stop (remaining : Nat) {first : Emission} {error : Error}
    (emitted : object.emitCopy output (sect.copySite id index chunk number) =
      .ok (first, some error)) :
    ∃ emission, object.emitCopies output sect id index chunk (remaining + 1) number =
        .ok emission ∧ ∃ diagnostic ∈ emission.diagnostics, diagnostic.error = error := by
  unfold Section.copySite at emitted
  simp only [emitCopies, emitted, bind, Except.bind, pure, Except.pure]
  exact ⟨_, rfl, _, List.mem_append_right _ (List.mem_singleton.mpr rfl), rfl⟩

section

variable (found : object.sections[id]? = some sect) (laidOut : sect.laidOut = true)
include found laidOut

/-- A chunk that was laid out is emitted copy by copy. -/
theorem emitChunk_eq (chunkAt : sect.chunks[index]? = some chunk)
    (sound : chunk.slot.error = none) :
    object.emitChunk output id index =
      (object.emitCopies output sect id index chunk chunk.count 0).map .ok := by
  simp only [emitChunk, getSection_natCast, found, chunkAt, laidOut, sound, bind, Except.bind, pure,
    Except.pure, Bool.not_true, Bool.false_eq_true, if_false]
  unfold Chunk.count
  cases object.emitCopies output sect id index chunk chunk.slot.copies.toInt.toNat 0 <;> rfl

/-- A chunk is emitted as its copies are. -/
theorem emitChunk_ok_iff (chunkAt : sect.chunks[index]? = some chunk)
    (sound : chunk.slot.error = none) {emission : Emission} :
    object.emitChunk output id index = .ok (.ok emission) ↔
      object.emitCopies output sect id index chunk chunk.count 0 = .ok emission := by
  rw [emitChunk_eq found laidOut chunkAt sound]
  cases object.emitCopies output sect id index chunk chunk.count 0 <;> simp [Except.map]

/-- A chunk of a section that was laid out without an error is not refused. -/
theorem emitChunk_ne_error (sound : ∀ chunk ∈ sect.chunks, chunk.slot.error = none)
    (error : Error) : object.emitChunk output id index ≠ .ok (.error error) := by
  cases chunkAt : sect.chunks[index]? with
  | none => simp [emitChunk, found, chunkAt, bind, Except.bind, pure, Except.pure]
  | some chunk =>
    rw [emitChunk_eq found laidOut chunkAt (sound chunk (List.mem_of_getElem? chunkAt))]
    cases object.emitCopies output sect id index chunk chunk.count 0 <;> simp [Except.map]

end

/-- The chunks of an emission that nothing stops. -/
theorem emitChunks_parts {indices : List Nat}
    (whole : ∀ index ∈ indices, ∀ error, object.emitChunk output id index ≠ .ok (.error error))
    (success : object.emitChunks output sect id indices = .ok emission) (silent : emission.Silent) :
    ∃ parts : List Emission, parts.length = indices.length ∧
      emission.bytes = (parts.map Emission.bytes).flatten ∧
      ∀ (place index : Nat) (part : Emission), indices[place]? = some index →
        parts[place]? = some part →
          object.emitChunk output id index = .ok (.ok part) ∧ part.Silent := by
  induction indices generalizing emission with
  | nil =>
    cases success
    exact ⟨[], rfl, rfl, by simp⟩
  | cons index rest ih =>
    obtain ⟨outcome, emitted, continued⟩ := exists_of_bind_ok success
    cases outcome with
    | error error => exact absurd emitted (whole index List.mem_cons_self error)
    | ok first =>
      obtain ⟨_, same, continued⟩ := exists_of_bind_ok continued
      cases same
      obtain ⟨others, later, same⟩ := exists_of_bind_ok continued
      cases same
      obtain ⟨silentFirst, silentOthers⟩ := Emission.silent_append.mp silent
      obtain ⟨parts, count, bytes, emits⟩ :=
        ih (fun other member => whole other (List.mem_cons_of_mem _ member)) later silentOthers
      refine ⟨first :: parts, by rw [List.length_cons, count, List.length_cons], ?_, ?_⟩
      · rw [List.map_cons, List.flatten_cons, ← bytes]
        rfl
      · intro place other part placeAt partAt
        cases place with
        | zero =>
          cases placeAt
          cases partAt
          exact ⟨emitted, fun diagnostic member =>
            silentFirst diagnostic (List.mem_append_left _ member)⟩
        | succ place => exact emits place other part placeAt partAt

/-- What an emission makes of a section that it was not refused: the object with the relocations and
reports, and the program unless a report stops it. -/
def ofEmission (object : Object) (sect : Section) (id : Nat) (emission : Emission) : Emitted :=
  let relocs := Reloc.insertAll emission.relocs sect.relocs
  { object :=
      { object.modifySection id fun sect => { sect with relocs } with
        diagnostics := object.diagnostics ++ emission.diagnostics }
    requests := emission.requests
    program :=
      match Diagnostic.errors emission.diagnostics with
      | some error => .error error
      | none =>
        if sect.noBits then
          .ok { name := sect.name, code := [], relocs
                reserved := UInt64.ofNat emission.bytes.length }
        else .ok { name := sect.name, code := emission.bytes, relocs } }

/-- A section is refused, or emitted chunk by chunk. -/
theorem emitSection_eq (output : Output) (found : object.sections[id]? = some sect) :
    object.emitSection output id =
      if !sect.laidOut then .ok { object, program := .error (.notLaidOut sect.name) }
      else if sect.failed then .ok { object, program := .error (.sectionFailed sect.name) }
      else (object.emitChunks output sect id (List.range sect.chunks.length)).map
        (object.ofEmission sect id) := by
  simp only [emitSection, getSection_natCast, found, bind, Except.bind, pure, Except.pure]
  split
  · rfl
  · split
    · rfl
    · cases object.emitChunks output sect id (List.range sect.chunks.length) <;> rfl

/-- There is nothing to emit for a section that does not exist. -/
theorem emitSection_missing (output : Output) (missing : object.sections[id]? = none) :
    object.emitSection output id = .error (.missingSection id) := by
  simp only [emitSection, getSection_natCast, missing]
  rfl

/-- A section with a program was laid out, and its program consists of what its chunks emit. -/
theorem emitSection_ok {emitted : Emitted} {program : Program}
    (found : object.sections[id]? = some sect)
    (success : object.emitSection output id = .ok emitted)
    (accepted : emitted.program = .ok program) :
    sect.laidOut = true ∧ sect.failed = false ∧ ∃ emission,
      object.emitChunks output sect id (List.range sect.chunks.length) = .ok emission ∧
      emission.Silent ∧
      program.relocs = Reloc.insertAll emission.relocs sect.relocs ∧
      program.code = (if sect.noBits then [] else emission.bytes) ∧
      (sect.noBits = true → program.reserved = UInt64.ofNat emission.bytes.length) := by
  unfold emitSection at success
  obtain ⟨_, same, continued⟩ := exists_of_bind_ok success
  rw [getSection_natCast, found] at same
  cases same
  by_cases laidOut : sect.laidOut = true
  · by_cases failed : sect.failed = true
    · simp only [laidOut, failed, Bool.not_true, Bool.false_eq_true, if_false, if_true, pure,
        Except.pure, Except.ok.injEq] at continued
      subst continued
      cases accepted
    · simp only [laidOut, failed, Bool.not_true, Bool.false_eq_true, if_false] at continued
      obtain ⟨emission, emits, same⟩ := exists_of_bind_ok continued
      cases same
      refine ⟨laidOut, Bool.eq_false_of_not_eq_true failed, emission, emits, ?_⟩
      dsimp only at accepted
      split at accepted
      · cases accepted
      · next quiet =>
        refine ⟨Emission.silent_iff.mpr quiet, ?_⟩
        split at accepted
        · next noBits =>
          cases accepted
          simp [noBits]
        · next bits =>
          cases accepted
          simp [bits]
  · simp only [laidOut, Bool.not_false, if_true, pure, Except.pure, Except.ok.injEq] at continued
    subst continued
    cases accepted

/-- A chunk that nothing stops has the length that its copies and their number give. -/
theorem length_of_emitCopies
    (success : object.emitCopies output sect id index chunk remaining number = .ok emission)
    (silent : emission.Silent) :
    emission.bytes.length = chunk.slot.length.toNat * remaining := by
  obtain ⟨copies, bytes, sizes, _⟩ := emitCopies_parts success silent
  rw [bytes, List.length_flatten, sizes, List.sum_replicate_nat, Nat.mul_comm]

/-- The chunks of a program: their bytes have the lengths of the layout. -/
theorem emitSection_parts {emitted : Emitted} {program : Program}
    (found : object.sections[id]? = some sect)
    (sound : ∀ chunk ∈ sect.chunks, chunk.slot.error = none)
    (success : object.emitSection output id = .ok emitted)
    (accepted : emitted.program = .ok program) :
    ∃ parts : List Emission,
      (parts.map Emission.bytes).map List.length = sect.chunks.map Chunk.extent ∧
      program.code = (if sect.noBits then [] else (parts.map Emission.bytes).flatten) ∧
      (sect.noBits = true →
        program.reserved = UInt64.ofNat (parts.map Emission.bytes).flatten.length) ∧
      ∀ (index : Nat) (chunk : Chunk), sect.chunks[index]? = some chunk →
        ∃ part, parts[index]? = some part ∧ part.Silent ∧
          object.emitChunk output id index = .ok (.ok part) := by
  obtain ⟨laidOut, _, emission, emits, silent, _, code, reserved⟩ :=
    emitSection_ok found success accepted
  obtain ⟨parts, count, bytes, emitsEach⟩ :=
    emitChunks_parts (fun _ _ => emitChunk_ne_error found laidOut sound) emits silent
  rw [List.length_range] at count
  have each : ∀ (index : Nat) (chunk : Chunk), sect.chunks[index]? = some chunk →
      ∃ part, parts[index]? = some part ∧ part.Silent ∧
        object.emitChunk output id index = .ok (.ok part) := by
    intro index chunk chunkAt
    have inRange := (List.getElem?_eq_some_iff.mp chunkAt).1
    have partAt := List.getElem?_eq_getElem (count ▸ inRange)
    obtain ⟨emitsPart, silentPart⟩ :=
      emitsEach index index _ (List.getElem?_range inRange) partAt
    exact ⟨_, partAt, silentPart, emitsPart⟩
  refine ⟨parts, ?_, by rw [code, bytes], by rw [← bytes]; exact reserved, each⟩
  apply List.ext_getElem?
  intro index
  rw [List.map_map, List.getElem?_map, List.getElem?_map]
  cases chunkAt : sect.chunks[index]? with
  | none =>
    have beyond := List.getElem?_eq_none_iff.mp chunkAt
    rw [List.getElem?_eq_none (count ▸ beyond)]
    rfl
  | some chunk =>
    obtain ⟨part, partAt, silentPart, emitsPart⟩ := each index chunk chunkAt
    have emitsCopies := (emitChunk_ok_iff found laidOut chunkAt
      (sound chunk (List.mem_of_getElem? chunkAt))).mp emitsPart
    rw [partAt, Option.map_some, Option.map_some, Option.some.injEq]
    exact length_of_emitCopies emitsCopies silentPart

end

end Object

end Assembler
