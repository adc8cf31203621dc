import Assembler.Proofs.Linking.Preparation

/-!
# Linking leaves nothing dangling

What can be laid out over a table refers to symbols of the table only. Linked, the table has the
same symbols, so that nothing dangles over it either (`exists_prepareAll_link`). There may be
problems that there were none of before, but these do not stop a layout.
-/

namespace Assembler

/-- A halt at a problem, and not at a dangling reference. -/
def Halt.IsProblem (halt : Halt) : Prop := ∃ error, halt = .problem error

/-- Preparing a chunk adds problems only, and nothing that dangles. -/
theorem Halt.allowsPreparation_isProblem : AllowsPreparation Halt.IsProblem where
  problem _ := ⟨_, rfl⟩
  within := by
    rintro context _ _ ⟨error, rfl⟩
    exact ⟨_, rfl⟩

section

variable {table : SymbolTable} (address : String → UInt64) {sectionId : Nat}

/-- Nothing in a chunk dangles over the linked table. -/
theorem Chunk.prepare_resolved {chunk changed : Chunk} {index : Nat} {spans : List Span}
    (prepares : chunk.prepare table sectionId index = (changed, .ok spans)) :
    Halts Halt.IsProblem (chunk.prepare (table.link address) sectionId index).2 := by
  refine Chunk.prepare_halts Halt.allowsPreparation_isProblem fun expr member => ?_
  obtain ⟨early, expands⟩ := Chunk.expand_reads prepares expr member
  obtain ⟨late, linked, _⟩ := SymbolTable.exists_expand_link address expands
  rw [linked]
  exact .ok late

/-- Chunks that can be prepared over a table can be prepared over the linked one. -/
theorem exists_prepareAll_link {chunks : List Chunk} {start : Nat} {prepared : Prepared}
    (prepares : prepareAll table sectionId start chunks = .ok prepared)
    (clean : prepared.problems = []) :
    ∃ late, prepareAll (table.link address) sectionId start chunks = .ok late := by
  induction chunks generalizing start prepared with
  | nil => exact ⟨_, rfl⟩
  | cons chunk rest ih =>
    obtain ⟨changed, spans, others, first, following, clean, rfl⟩ :=
      prepareAll_cons_clean prepares clean
    obtain ⟨late, linked⟩ := ih following clean
    have resolved := Chunk.prepare_resolved address first
    rw [prepareAll, linked]
    cases result : chunk.prepare (table.link address) sectionId start with
    | mk lateChanged lateOutcome =>
      rw [result] at resolved
      cases lateOutcome with
      | ok lateSpans => exact ⟨_, rfl⟩
      | error halt =>
        obtain ⟨error, rfl⟩ := resolved halt rfl
        exact ⟨_, rfl⟩

end

end Assembler
