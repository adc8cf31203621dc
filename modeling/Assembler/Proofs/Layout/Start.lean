import Assembler.Proofs.Layout.Preparation
import Assembler.Proofs.Relaxation.Orderly
import Mathlib.Data.List.Nodup

/-!
# The start of a relaxation

A layout prepares the chunks of a section and relaxes what that gives (`layout_eq_ok_iff`). At the
start every promise of a span holds (`coherent_relaxation`), since counts start at zero, integers at
one byte and branches in their short form, and without a problem no slot has failed.
-/

namespace Assembler

variable {index : Nat} {span : Span} {chunk : Chunk}

section

variable {body : Body} {copies : Int64} {counted : Bool} {measure : Measure} {table : SymbolTable}
  (measured : body.Measured table index counted copies measure)
include measured

/-- Only padding has a rule. -/
theorem Body.Measured.setter_none (unset : body.kind.role ≠ .offsetSetter) :
    measure.setter = none := by
  cases measured with
  | align | org => exact absurd rfl unset
  | branch chosen => exact (Branch.measure_ok chosen).2.2.2.1
  | data | constant | deferred | reserve | binary | instruction => rfl

/-- The span that a body registers watches its length, and what it promises holds of the measure. -/
theorem Body.Measured.span_holds (registered : measure.span = some span) (home : Nat)
    (slot : Slot) (length : slot.length = measure.length) (near : slot.near = measure.near) :
    span.index = index ∧ span.state = .active ∧ span.purpose.id = 1 ∧ measure.setter = none ∧
      span.Holds home slot := by
  cases measured with
  | deferred =>
    simp only [Option.some.injEq] at registered
    subst registered
    refine ⟨rfl, rfl, rfl, rfl, .inl rfl, ?_⟩
    rw [length]
    exact Nat.le_refl 1
  | branch chosen =>
    obtain ⟨_, _, _, ruleless, short | short⟩ := Branch.measure_ok chosen
    · rw [short.2.2] at registered
      cases registered
    · obtain ⟨notNear, _, _, fixed | ⟨_, _, watched⟩⟩ := short
      · rw [fixed.2] at registered
        cases registered
      · rw [watched, Option.some.injEq] at registered
        subst registered
        exact ⟨rfl, rfl, rfl, ruleless, near.trans notNear⟩
  | data | constant | reserve | binary | align | org | instruction => cases registered

end

/-- The span of a repeat count watches the number of copies, of a chunk that is no padding. -/
theorem initialCopies_span {table : SymbolTable} {sectionId : Nat} {copies : Int64}
    (success : chunk.initialCopies table sectionId index = .ok (copies, some span)) (home : Nat)
    (slot : Slot) (same : slot.copies = copies) :
    span.index = index ∧ span.state = .active ∧ span.purpose.id = 0 ∧
      chunk.kind.role ≠ .offsetSetter ∧ span.Holds home slot := by
  rcases initialCopies_ok success with ⟨_, _, absent⟩ | ⟨count, expanded, _, unset, _, found⟩
  · cases absent
  · rcases found with ⟨_, _, _, _, absent⟩ | ⟨_, _, _, zero, registered⟩
    · cases absent
    · rw [Option.some.injEq] at registered
      subst registered
      refine ⟨rfl, rfl, rfl, unset, .inl rfl, ?_, Int64.le_refl 0⟩
      rw [same, zero]

section

variable {prepared : Chunk} {sectionId : Nat} {spans : List Span} {table : SymbolTable}
  (success : chunk.prepare table sectionId index = (prepared, .ok spans))
include success

/-- A span that preparing a chunk registers is active, belongs to the chunk and makes a promise that
holds. -/
theorem span_of_prepare (home : Nat) (member : span ∈ spans) :
    span.index = index ∧ span.state = .active ∧ prepared.slot.setter = none ∧
      prepared.slot.error = none ∧ span.Holds home prepared.slot := by
  obtain ⟨body, copies, countSpan, measure, settled, counted, measuredOk, same, rfl⟩ :=
    prepare_ok success
  have measured := Body.measured_of_ok measuredOk
  rcases List.mem_append.mp member with count | form
  · obtain rfl := Option.mem_toList.mp count
    obtain ⟨here, active, _, unset, holds⟩ :=
      initialCopies_span counted home prepared.slot (by rw [same])
    have ruleless := measured.setter_none ((Body.kind_of_settle settled).symm ▸ unset)
    exact ⟨here, active, by rw [same, ruleless], by rw [same], holds⟩
  · obtain ⟨here, active, _, ruleless, holds⟩ :=
      measured.span_holds (Option.mem_toList.mp form) home prepared.slot (by rw [same])
        (by rw [same])
    exact ⟨here, active, by rw [same, ruleless], by rw [same], holds⟩

/-- The spans of a chunk are of different kinds. -/
theorem nodup_ids_of_prepare :
    (spans.map fun span => span.purpose.id).Nodup := by
  obtain ⟨body, copies, countSpan, measure, _, counted, measuredOk, _, rfl⟩ := prepare_ok success
  have measured := Body.measured_of_ok measuredOk
  cases countSpan with
  | none => cases measure.span <;> simp
  | some count =>
    have counts := (initialCopies_span counted 0 { copies } rfl).2.2.1
    cases watched : measure.span with
    | none => simp
    | some form =>
      have forms := (measured.span_holds watched 0
        { length := measure.length, near := measure.near } rfl rfl).2.2.1
      simp [counts, forms]

end

namespace Chunk

/-- A chunk has failed exactly when it could not be prepared. -/
theorem prepare_error (chunk : Chunk) (table : SymbolTable) (sectionId index : Nat) :
    (chunk.prepare table sectionId index).1.slot.error =
      chunk.preparationProblem table sectionId index := by
  unfold preparationProblem
  cases result : chunk.prepare table sectionId index with
  | mk changed outcome =>
    cases outcome with
    | ok spans =>
      obtain ⟨_, _, _, _, _, _, _, rfl, _⟩ := prepare_ok result
      rfl
    | error halt =>
      obtain ⟨_, rfl, _⟩ := prepare_failed result
      cases halt <;> rfl

end Chunk

namespace Prepared

/-- What a relaxation starts from. -/
def relaxation (prepared : Prepared) (home : Nat) : Relaxation :=
  { home
    slots := prepared.chunks.map Chunk.slot
    spans := prepared.spans
    problems := prepared.problems }

end Prepared

section

variable {table : SymbolTable} {sectionId : Nat} {chunks : List Chunk} {prepared : Prepared}

/-- The chunk at an index is prepared with that index. -/
theorem prepareAll_getElem? (success : prepareAll table sectionId 0 chunks = .ok prepared)
    (index : Nat) :
    prepared.chunks[index]? =
      (chunks[index]?).map fun chunk => (chunk.prepare table sectionId index).1 := by
  rw [(prepareAll_eq success).1, List.getElem?_map, List.getElem?_zipIdx]
  cases chunks[index]? <;> simp

/-- The spans of a section are those of its chunks. -/
theorem mem_prepareAll_spans (success : prepareAll table sectionId 0 chunks = .ok prepared) :
    span ∈ prepared.spans ↔
      ∃ (index : Nat) (chunk : Chunk), chunks[index]? = some chunk ∧
        span ∈ chunk.preparedSpans table sectionId index := by
  rw [(prepareAll_eq success).2.1, List.mem_flatMap]
  constructor
  · rintro ⟨⟨chunk, index⟩, member, registered⟩
    exact ⟨index, chunk, List.mem_zipIdx_iff_getElem?.mp member, registered⟩
  · rintro ⟨index, chunk, chunkAt, registered⟩
    exact ⟨(chunk, index), List.mem_zipIdx_iff_getElem?.mpr chunkAt, registered⟩

/-- No chunk has a dangling reference once all were prepared. -/
theorem prepareAll_resolved {start : Nat}
    (success : prepareAll table sectionId start chunks = .ok prepared)
    (member : (chunk, index) ∈ chunks.zipIdx start) (reference : Dangling) :
    (chunk.prepare table sectionId index).2 ≠ .error (.dangling reference) := by
  induction chunks generalizing start prepared with
  | nil => cases member
  | cons first rest ih =>
    rw [prepareAll] at success
    rw [List.zipIdx_cons, List.mem_cons] at member
    cases result : first.prepare table sectionId start with
    | mk changed outcome =>
      rcases member with here | later
      · obtain ⟨rfl, rfl⟩ := Prod.mk.inj here
        rintro dangles
        rw [result] at dangles success
        subst dangles
        cases success
      · rw [result] at success
        cases others : prepareAll table sectionId (start + 1) rest with
        | ok following => exact ih others later
        | error missing =>
          rw [others] at success
          cases outcome with
          | ok spans => cases success
          | error halt => cases halt <;> cases success

variable (success : prepareAll table sectionId 0 chunks = .ok prepared)
include success

/-- A chunk without a problem is prepared. -/
theorem prepare_of_unproblematic (chunkAt : chunks[index]? = some chunk)
    (unproblematic : chunk.preparationProblem table sectionId index = none) :
    ∃ changed spans, chunk.prepare table sectionId index = (changed, .ok spans) := by
  have resolved := prepareAll_resolved success (List.mem_zipIdx_iff_getElem?.mpr chunkAt)
  cases result : chunk.prepare table sectionId index with
  | mk changed outcome =>
    cases outcome with
    | ok spans => exact ⟨changed, spans, rfl⟩
    | error halt =>
      cases halt with
      | dangling reference => exact absurd (by rw [result]) (resolved reference)
      | problem error => simp [Chunk.preparationProblem, result] at unproblematic

/-- Without a problem, every chunk was prepared. -/
theorem prepare_of_clean (clean : prepared.problems = []) (chunkAt : chunks[index]? = some chunk) :
    ∃ changed spans, chunk.prepare table sectionId index = (changed, .ok spans) := by
  rw [(prepareAll_eq success).2.2, List.filterMap_eq_nil_iff] at clean
  have unproblematic := clean (chunk, index) (List.mem_zipIdx_iff_getElem?.mpr chunkAt)
  exact prepare_of_unproblematic success chunkAt (by simpa using unproblematic)

/-- Without problems, no slot has an error. -/
theorem sound_prepareAll (clean : prepared.problems = []) :
    ∀ slot ∈ (prepared.relaxation sectionId).slots, slot.error = none := by
  intro slot member
  obtain ⟨after, afterMember, rfl⟩ := List.mem_map.mp member
  obtain ⟨index, afterAt⟩ := List.mem_iff_getElem?.mp afterMember
  rw [prepareAll_getElem? success, Option.map_eq_some_iff] at afterAt
  obtain ⟨chunk, chunkAt, rfl⟩ := afterAt
  rw [(prepareAll_eq success).2.2, List.filterMap_eq_nil_iff] at clean
  have unproblematic := clean (chunk, index) (List.mem_zipIdx_iff_getElem?.mpr chunkAt)
  rw [Chunk.prepare_error]
  simpa using unproblematic

/-- The spans of the chunks are all of different chunks or kinds. -/
theorem nodup_spanKeys :
    (prepared.relaxation sectionId).spanKeys.Nodup := by
  have keyed : (prepared.relaxation sectionId).spanKeys =
      chunks.zipIdx.flatMap fun entry =>
        (entry.1.preparedSpans table sectionId entry.2).map fun span =>
          (span.index, span.purpose.id) := by
    simp only [Relaxation.spanKeys, Prepared.relaxation, (prepareAll_eq success).2.1,
      List.map_flatMap]
  rw [keyed, List.nodup_flatMap]
  constructor
  · rintro ⟨chunk, index⟩ _
    cases result : chunk.prepare table sectionId index with
    | mk changed spans =>
      cases spans with
      | error halt => simp [Chunk.preparedSpans, result, Except.toOption]
      | ok spans =>
        have distinct := nodup_ids_of_prepare result
        simp only [Chunk.preparedSpans, result, Except.toOption, Option.getD_some]
        refine List.Nodup.of_map Prod.snd ?_
        simpa [Function.comp_def] using distinct
  · rw [List.pairwise_iff_getElem]
    intro first second _ _ less key firstKey secondKey
    simp only [List.getElem_zipIdx, Nat.zero_add, List.mem_map] at firstKey secondKey
    obtain ⟨span, spanMember, rfl⟩ := firstKey
    obtain ⟨other, otherMember, same⟩ := secondKey
    obtain ⟨_, _, firstOk, firstMember⟩ := Chunk.prepare_of_mem_preparedSpans spanMember
    obtain ⟨_, _, secondOk, secondMember⟩ := Chunk.prepare_of_mem_preparedSpans otherMember
    have firstIndex := (span_of_prepare firstOk 0 firstMember).1
    have secondIndex := (span_of_prepare secondOk 0 secondMember).1
    have together : other.index = span.index := congrArg Prod.fst same
    omega

/-- At the start of a relaxation, spans and slots agree. -/
theorem coherent_relaxation :
    (prepared.relaxation sectionId).Coherent where
  watched := by
    intro span member
    obtain ⟨index, chunk, chunkAt, registered⟩ := (mem_prepareAll_spans success).mp member
    obtain ⟨changed, spans, result, spanMember⟩ := Chunk.prepare_of_mem_preparedSpans registered
    obtain ⟨here, _, ruleless, sound, holds⟩ := span_of_prepare result sectionId spanMember
    have changedAt : prepared.chunks[span.index]? = some changed := by
      rw [prepareAll_getElem? success, here, chunkAt, Option.map_some, result]
    refine ⟨changed.slot, ?_, ruleless, fun _ => sound, holds⟩
    rw [Prepared.relaxation, List.getElem?_map, changedAt, Option.map_some]
  distinct := nodup_spanKeys success

end

/-- A computation that was run and found to return a value with a property. -/
theorem exists_ok_of_any {ε α : Type} {p : α → Prop} [DecidablePred p] (result : Except ε α)
    (found : (result.toOption.any fun value => p value) = true) :
    ∃ value, result = .ok value ∧ p value := by
  cases result with
  | error problem => simp [Except.toOption] at found
  | ok value => exact ⟨value, rfl, by simpa [Except.toOption] using found⟩

/-- A computation with a value succeeded. -/
theorem ok_of_toOption {ε α : Type} {result : Except ε α} {value : α}
    (found : result.toOption = some value) : result = .ok value := by
  cases result with
  | error problem => cases found
  | ok other =>
    cases found
    rfl

/-- The layout of a section whose chunks were prepared and relaxed. -/
def Section.recorded (sect : Section) (prepared : Prepared) (relaxed : Relaxation) : Layout where
  sect :=
    { sect with
      chunks := List.zipWith (fun chunk slot => { chunk with slot }) prepared.chunks relaxed.slots
      spans := relaxed.spans
      relocs := []
      size := relaxed.size
      laidOut := true
      failed := !relaxed.problems.isEmpty
      stats :=
        { passes := relaxed.passes
          spans := prepared.spans.length
          expansions := relaxed.expansions
          retired := relaxed.retired } }
  diagnostics := relaxed.problems.map sect.reportProblem
  growths := relaxed.growths

/-- A layout relaxes what preparing its chunks gave, and records the result. -/
theorem layout_eq_ok_iff {sect : Section} {table : SymbolTable} {maxPasses : Int} {id : Nat}
    {layout : Layout} :
    sect.layout table maxPasses id = .ok layout ↔
      ∃ prepared, prepareAll table id 0 sect.chunks = .ok prepared ∧
        sect.recorded prepared ((prepared.relaxation id).settle maxPasses) = layout := by
  unfold Section.layout
  cases result : prepareAll table id 0 sect.chunks with
  | error reference => simp [bind, Except.bind]
  | ok prepared =>
    simp only [bind, Except.bind, pure, Except.pure, Except.ok.injEq, exists_eq_left']
    rfl

end Assembler
