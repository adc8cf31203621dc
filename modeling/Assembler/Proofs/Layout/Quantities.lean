import Assembler.Proofs.Layout.Blame
import Assembler.Proofs.Symbol.Lasting

/-!
# Quantities that last

A chunk that is prepared reads only what can be expanded (`Chunk.expand_reads`). Repeat counts,
lengths and rules have to be constants or distances, so no symbol is left in them. A later table
that keeps such expansions measures and counts a chunk as the earlier one does (`Body.measure_kept`,
`initialCopies_kept`).
-/

namespace Assembler

section

variable {table after : SymbolTable}

/-- An expression that expands to a constant. -/
def SymbolTable.Constant (table : SymbolTable) (expr : Expr) : Prop :=
  ∃ early, table.expand expr = .ok early ∧ early.terms = []

/-- What is found to be a constant expands to one. -/
theorem constant_of_constantWord {expr : Expr} {word : Int64}
    (found : table.constantWord expr = .ok word) : table.Constant expr := by
  obtain ⟨early, expands, checked⟩ := exists_of_bind_ok found
  refine ⟨early, expands, ?_⟩
  split at checked
  · next accepted =>
    simp only [Bool.and_eq_true, Expr.isConstant, List.isEmpty_iff] at accepted
    exact accepted.1
  · cases checked

/-- A quantity that is found expands to a constant. -/
theorem constant_of_naturalWord {quantity : Quantity} {expr : Expr} {word : UInt64}
    (found : table.naturalWord quantity expr = .ok word) : table.Constant expr := by
  obtain ⟨value, wraps, _⟩ := exists_of_bind_ok found
  exact constant_of_constantWord (Halt.eq_ok_of_wrap wraps)

section

variable {body : Body} {index : Nat} {counted : Bool} {copies : Int64} {measure : Measure}

/-- The quantities of a body that is measured expand to constants. -/
theorem Body.constant_quantities
    (measures : body.measure table index counted copies = .ok measure) :
    ∀ expr ∈ body.quantities, table.Constant expr := by
  have measured := Body.measured_of_ok measures
  cases measured with
  | reserve found | org found => exact List.forall_mem_singleton.mpr (constant_of_naturalWord found)
  | binary window =>
    obtain ⟨start, starts, limits⟩ := exists_of_bind_ok window
    refine List.forall_mem_append.mpr ⟨fun expr member => ?_, fun expr member => ?_⟩
    · rw [Binary.windowStart, Option.mem_toList.mp member] at starts
      obtain ⟨_, found, _⟩ := exists_of_bind_ok starts
      exact constant_of_naturalWord found
    · rw [Option.mem_toList.mp member] at limits
      obtain ⟨_, found, _⟩ := exists_of_bind_ok limits
      exact constant_of_naturalWord found
  | align rule =>
    obtain ⟨_, _, bounded, limited, _⟩ := Align.setter_ok rule
    refine List.forall_mem_cons.mpr ⟨constant_of_constantWord bounded, fun expr member => ?_⟩
    rw [Align.skipLimit, Option.mem_toList.mp member] at limited
    exact constant_of_naturalWord limited
  | data | constant | deferred | instruction | branch => exact fun _ none => nomatch none

/-- What a body measures depends only on what its quantities expand to. -/
theorem Body.measure_congr
    (same : ∀ expr ∈ body.quantities, after.expand expr = table.expand expr) :
    body.measure after index counted copies = body.measure table index counted copies := by
  have constant : ∀ expr ∈ body.quantities, after.constantWord expr = table.constantWord expr :=
    fun expr member => by rw [SymbolTable.constantWord, SymbolTable.constantWord, same expr member]
  have natural : ∀ expr ∈ body.quantities, ∀ quantity,
      after.naturalWord quantity expr = table.naturalWord quantity expr :=
    fun expr member quantity => by
      rw [SymbolTable.naturalWord, SymbolTable.naturalWord, constant expr member]
  cases body with
  | reserve | org => simp only [Body.measure, natural _ List.mem_cons_self]
  | binary part =>
    obtain ⟨first, second⟩ := List.forall_mem_append.mp natural
    have window : part.window after = part.window table := by
      unfold Binary.window Binary.windowStart
      cases start : part.start <;> cases limit : part.maxLength <;>
        simp_all
    simp only [Body.measure, window]
  | align padding =>
    obtain ⟨_, second⟩ := List.forall_mem_cons.mp natural
    have limited : padding.skipLimit after = padding.skipLimit table := by
      unfold Align.skipLimit
      cases skip : padding.maxSkip <;> simp_all
    simp only [Body.measure, Align.setter, constant _ List.mem_cons_self, limited]
  | data | leb128 | instruction | branch => rfl

/-- A body is measured over the later table as over the table. -/
theorem Body.measure_kept (measures : body.measure table index counted copies = .ok measure)
    (keeps : ∀ expr ∈ body.quantities, table.Keeps after expr) :
    body.measure after index counted copies = .ok measure := by
  rw [← measures]
  refine Body.measure_congr fun expr member => ?_
  obtain ⟨early, expands, constant⟩ := Body.constant_quantities measures expr member
  rw [expands, keeps expr member early expands (by simp [constant])]

end

/-- The number of copies is found over the later table as over the table. -/
theorem initialCopies_kept {chunk : Chunk} {sectionId index : Nat} {count : Int64 × Option Span}
    (found : chunk.initialCopies table sectionId index = .ok count)
    (keeps : ∀ expr ∈ chunk.repeats, table.Keeps after expr) :
    chunk.initialCopies after sectionId index = .ok count := by
  obtain ⟨copies, span⟩ := count
  rcases initialCopies_ok found with ⟨once, _⟩ | ⟨expr, early, repeated, _, expands, counted⟩
  · unfold Chunk.initialCopies at found ⊢
    rw [once] at found ⊢
    exact found
  · have places : ∀ term ∈ early.terms, term.isPlace = true := by
      intro term member
      rcases counted with ⟨constant, _⟩ | ⟨_, distance, _⟩
      · rw [List.isEmpty_iff.mp constant] at member
        cases member
      · simp only [Expr.isDistance, Bool.and_eq_true, List.all_eq_true] at distance
        have inside := distance.1 term member
        unfold Term.isPlace
        cases base : term.base with
        | place location => rfl
        | symbol id => simp [base] at inside
    have again := keeps expr repeated early expands places
    unfold Chunk.initialCopies at found ⊢
    simp only [repeated, expands, again] at found ⊢
    exact found

/-- What a chunk that is prepared reads can be expanded. -/
theorem Chunk.expand_reads {chunk changed : Chunk} {sectionId index : Nat} {spans : List Span}
    (prepares : chunk.prepare table sectionId index = (changed, .ok spans)) :
    ∀ expr ∈ chunk.reads, ∃ early, table.expand expr = .ok early := by
  obtain ⟨body, copies, countSpan, measure, settles, counts, measures, _, _⟩ := prepare_ok prepares
  refine List.forall_mem_append.mpr ⟨fun expr member => ?_,
    List.forall_mem_append.mpr ⟨fun expr member => ?_, fun expr member => ?_⟩⟩
  · rcases initialCopies_ok counts with ⟨once, _⟩ | ⟨count, early, repeated, _, expands, _⟩
    · simp [once] at member
    · obtain rfl : expr = count := by simpa [repeated] using member
      exact ⟨early, expands⟩
  · rw [← Body.quantities_settle chunk.body table sectionId index chunk.line, settles] at member
    obtain ⟨early, expands, _⟩ := Body.constant_quantities measures expr member
    exact ⟨early, expands⟩
  · obtain ⟨field, isField, pending⟩ := (Body.mem_pending chunk.line).mp member
    obtain ⟨site, value, settled⟩ := Body.settle_done (congrArg Prod.snd settles) isField
    unfold Field.pending at pending
    split at pending
    · cases pending
    · next unsettled =>
      rw [List.mem_singleton.mp pending]
      rw [Field.settle, if_neg unsettled] at settled
      obtain ⟨early, expands, _⟩ := exists_of_bind_ok settled
      exact ⟨early, expands⟩

end

end Assembler
