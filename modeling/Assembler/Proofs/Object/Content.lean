import Assembler.Proofs.Linking.Programs
import Assembler.Proofs.Object.History

/-!
# The programs of a built object

A program of a section that has what a layout left in it is as long as the section
(`Section.Sound.length_code`), and filling in its relocations does not change that.
-/

namespace Assembler

namespace Section.Keeps

variable {sect laid : Section}

/-- Chunks at the same index are the same up to the repeat count. -/
theorem exists_uncounted (keeps : sect.Keeps laid) {index : Nat} {chunk : Chunk}
    (chunkAt : sect.chunks[index]? = some chunk) :
    ∃ other, laid.chunks[index]? = some other ∧ chunk.uncounted = other.uncounted := by
  have same := congrArg (fun chunks : List Chunk => chunks[index]?) keeps.chunks
  simp only [List.getElem?_map, chunkAt, Option.map_some] at same
  obtain ⟨other, otherAt, alike⟩ := Option.map_eq_some_iff.mp same.symm
  exact ⟨other, otherAt, alike.symm⟩

/-- Chunks at the same index have the same body and slot. -/
theorem exists_chunk (keeps : sect.Keeps laid) {index : Nat} {chunk : Chunk}
    (chunkAt : sect.chunks[index]? = some chunk) :
    ∃ other, laid.chunks[index]? = some other ∧ chunk.body = other.body ∧
      chunk.slot = other.slot := by
  obtain ⟨other, otherAt, alike⟩ := keeps.exists_uncounted chunkAt
  rw [Chunk.uncounted, Chunk.uncounted, Chunk.mk.injEq] at alike
  simp_all

/-- What does not read the repeat count is the same of all chunks. -/
theorem map_eq {α : Type} (keeps : sect.Keeps laid) (view : Chunk → α)
    (uncounted : ∀ chunk, view chunk.uncounted = view chunk) :
    sect.chunks.map view = laid.chunks.map view := by
  have same := congrArg (List.map view) keeps.chunks
  have plain : view ∘ Chunk.uncounted = view := funext uncounted
  rwa [List.map_map, List.map_map, plain] at same

/-- A section that keeps its layout keeps its size. -/
theorem exactSize_eq (keeps : sect.Keeps laid) : sect.exactSize = laid.exactSize :=
  congrArg List.sum (keeps.map_eq (fun chunk => chunk.exactLength * chunk.count) fun _ => rfl)

end Section.Keeps

namespace Section.Sound

variable {object : Object} {sect : Section} {id : Nat}

/-- No chunk of a sound section has failed. -/
theorem error_none (sound : sect.Sound id) : ∀ chunk ∈ sect.chunks, chunk.slot.error = none := by
  obtain ⟨laid, table, clean, keeps⟩ := sound
  intro chunk member
  obtain ⟨index, chunkAt⟩ := List.mem_iff_getElem?.mp member
  obtain ⟨other, otherAt, _, slot⟩ := keeps.exists_chunk chunkAt
  rw [slot]
  exact clean.error_none other (List.mem_of_getElem? otherAt)

/-- The size of a sound section is the length of its chunks together. -/
theorem toNat_size (sound : sect.Sound id) (bounded : sect.exactSize < 2 ^ 63) :
    sect.size.toNat = (sect.chunks.map Chunk.extent).sum := by
  obtain ⟨laid, table, clean, keeps⟩ := sound
  rw [keeps.exactSize_eq] at bounded
  rw [keeps.size, clean.toNat_size bounded, keeps.map_eq Chunk.extent fun _ => rfl]

/-- A program of a sound section with bytes of a file is as long as the section. -/
theorem length_code {output : Output} {emitted : Object.Emitted} {program : Program}
    (sound : sect.Sound id) (bounded : sect.exactSize < 2 ^ 63)
    (found : object.sections[id]? = some sect) (filed : sect.noBits = false)
    (success : object.emitSection output id = .ok emitted)
    (accepted : emitted.program = .ok program) : program.code.length = sect.size.toNat := by
  obtain ⟨parts, lengths, code, _⟩ :=
    Object.emitSection_parts found sound.error_none success accepted
  rw [code, filed, if_neg Bool.false_ne_true, List.length_flatten, lengths,
    sound.toNat_size bounded]

end Section.Sound

end Assembler
