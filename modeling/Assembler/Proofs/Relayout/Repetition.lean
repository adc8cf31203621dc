import Assembler.Proofs.Layout.Sections
import Assembler.Proofs.Relayout.Settling

/-!
# Laying out again

A layout changes the chunks that it reads: fields are settled, a part of given bytes records where
it starts, and a branch keeps its form. None of this shows when the section is laid out again over
the same symbols (`layoutSection_repeats`), whether chunks have failed, the relaxation was cut short
or all went well.
-/

namespace Assembler

variable {relaxed : Relaxation} {layout : Layout}

section

variable {early late table : SymbolTable} {sectionId index : Nat} {chunk : Chunk}

/-- Only parts of given bytes are of their kind. -/
theorem Body.eq_binary {body : Body} (part : body.kind = .binary) :
    ∃ given, body = .binary given := by
  cases body with
  | binary given => exact ⟨given, rfl⟩
  | data | leb128 | reserve | align | org | instruction | branch => cases part

/-- A chunk is prepared by its settled body, its line and its repeat count. What form it had counts
only if it cannot be prepared. -/
theorem Chunk.prepare_congr {body : Body} {slot : Slot}
    (settles : body.settle table sectionId index chunk.line =
      chunk.body.settle table sectionId index chunk.line)
    (near : slot.near = chunk.slot.near ∨
      ∃ changed spans, chunk.prepare table sectionId index = (changed, .ok spans)) :
    ({ chunk with body, slot } : Chunk).prepare table sectionId index =
      chunk.prepare table sectionId index := by
  have kind : body.kind = chunk.body.kind := by
    rw [← Body.settle_kind body table sectionId index chunk.line, settles, Body.settle_kind]
  have counts : ({ chunk with body, slot } : Chunk).initialCopies table sectionId index =
      chunk.initialCopies table sectionId index := by
    unfold Chunk.initialCopies Chunk.kind
    dsimp only
    rw [kind]
  rcases near with same | ⟨changed, spans, success⟩
  · simp only [Chunk.prepare, settles, counts, same]
  · obtain ⟨settled, copies, countSpan, measure, settledBy, counted, measured, rfl, rfl⟩ :=
      prepare_ok success
    rw [success]
    simp only [Chunk.prepare, settles, counts, settledBy, counted, measured]

/-- What preparing leaves of a chunk: its body is settled, and a part of given bytes may record a
new start. -/
theorem Chunk.prepare_body (chunk : Chunk) (table : SymbolTable) (sectionId index : Nat) :
    ∃ body slot, (chunk.prepare table sectionId index).1 = { chunk with body, slot } ∧
      (body = (chunk.body.settle table sectionId index chunk.line).1 ∨
        ∃ part skip, chunk.body = .binary part ∧ body = .binary { part with skip }) := by
  cases result : chunk.prepare table sectionId index with
  | mk changed outcome =>
    cases outcome with
    | error halt =>
      obtain ⟨_, same, _⟩ := prepare_failed result
      exact ⟨_, _, same, .inl rfl⟩
    | ok spans =>
      obtain ⟨body, copies, countSpan, measure, settled, _, measuredOk, same, _⟩ :=
        prepare_ok result
      have measured := Body.measured_of_ok measuredOk
      refine ⟨measure.body, _, same, ?_⟩
      by_cases part : chunk.body.kind = .binary
      · right
        obtain ⟨given, isBody⟩ := Body.eq_binary part
        rw [isBody, Body.settle, Prod.mk.injEq] at settled
        obtain ⟨rfl, _⟩ := settled
        cases measured with
        | binary window => exact ⟨given, _, isBody, rfl⟩
      · left
        rw [← Body.kind_of_settle settled] at part
        rw [measured.body_eq part, settled]

/-- Where a part of given bytes started before plays no role in where it starts. -/
theorem Chunk.prepare_skip {part : Binary} (isPart : chunk.body = .binary part) {changed : Chunk}
    {spans : List Span} (success : chunk.prepare table sectionId index = (changed, .ok spans))
    (skip : Nat) (slot : Slot) :
    ({ chunk with body := .binary { part with skip }, slot } : Chunk).prepare table sectionId
      index = (changed, .ok spans) := by
  have measures : ∀ counted copies,
      (Body.binary { part with skip }).measure table index counted copies =
        chunk.body.measure table index counted copies := by
    intro counted copies
    rw [isPart]
    rfl
  have counts : ({ chunk with body := .binary { part with skip }, slot } : Chunk).initialCopies
      table sectionId index = chunk.initialCopies table sectionId index := by
    unfold Chunk.initialCopies Chunk.kind
    rw [isPart]
    rfl
  obtain ⟨body, copies, countSpan, measure, settled, counted, measured, rfl, rfl⟩ :=
    prepare_ok success
  rw [isPart, Body.settle, Prod.mk.injEq] at settled
  obtain ⟨rfl, _⟩ := settled
  rw [← isPart] at measured
  simp only [Chunk.prepare, Body.settle, counts, counted, measures, measured]

/-- After an early preparation and any relaxation, the late symbols prepare a chunk to what they
would make of it at once, if its fields come out alike. -/
theorem Chunk.prepare_again (lasts : chunk.body.Lasts early late sectionId index)
    {changed : Chunk} {spans : List Span} (slot : Slot) :
    ({ (chunk.prepare early sectionId index).1 with slot } : Chunk).prepare late sectionId index =
        (changed, .ok spans) ↔
      chunk.prepare late sectionId index = (changed, .ok spans) := by
  obtain ⟨body, before, same, rfl | ⟨part, skip, isPart, rfl⟩⟩ :=
    chunk.prepare_body early sectionId index
  · rw [same]
    have settles := Body.settle_again lasts chunk.line
    constructor
    · intro success
      rw [← success]
      exact Chunk.prepare_congr settles.symm (.inr ⟨changed, spans, success⟩)
    · intro success
      rw [← success]
      exact Chunk.prepare_congr settles (.inr ⟨changed, spans, success⟩)
  · rw [same]
    constructor
    · intro success
      have back := Chunk.prepare_skip rfl success part.skip chunk.slot
      rwa [show ({ part with skip := part.skip } : Binary) = part from rfl, ← isPart] at back
    · intro success
      exact Chunk.prepare_skip isPart success skip slot

/-- A chunk that was prepared is prepared again to the same, whatever the relaxation made of its
slot; one that could not be prepared must have kept its form. -/
theorem Chunk.prepare_repeats {slot : Slot}
    (near : (∀ spans, (chunk.prepare table sectionId index).2 ≠ .ok spans) →
      slot.near = chunk.slot.near) :
    ({ (chunk.prepare table sectionId index).1 with slot } : Chunk).prepare table sectionId index =
      chunk.prepare table sectionId index := by
  have lasts : chunk.body.Lasts table table sectionId index := fun _ _ => rfl
  cases result : chunk.prepare table sectionId index with
  | mk changed outcome =>
    cases outcome with
    | ok spans =>
      have again := (Chunk.prepare_again lasts slot).mpr result
      rwa [result] at again
    | error halt =>
      obtain ⟨_, rfl, _⟩ := prepare_failed result
      have unprepared : ∀ spans, (chunk.prepare table sectionId index).2 ≠ .ok spans := by
        intro spans prepared
        rw [result] at prepared
        cases prepared
      exact (Chunk.prepare_congr (Body.settle_again lasts chunk.line)
        (.inl (near unprepared))).trans result

/-- Chunks that are prepared alike one by one, over the same symbols or others, are prepared alike
together. -/
theorem prepareAll_congr {start : Nat} {chunks others : List Chunk}
    (length : others.length = chunks.length)
    (alike : ∀ (place : Nat) (chunk other : Chunk), chunks[place]? = some chunk →
      others[place]? = some other →
      other.prepare late sectionId (start + place) =
        chunk.prepare early sectionId (start + place)) :
    prepareAll late sectionId start others = prepareAll early sectionId start chunks := by
  induction chunks generalizing others start with
  | nil => rw [List.length_eq_zero_iff.mp length, prepareAll, prepareAll]
  | cons first rest ih =>
    cases others with
    | nil => cases length
    | cons other more =>
      have same := alike 0 first other rfl rfl
      have following : prepareAll late sectionId (start + 1) more =
          prepareAll early sectionId (start + 1) rest := by
        apply ih (by simpa using length)
        intro place chunk another chunkAt anotherAt
        have later := alike (place + 1) chunk another chunkAt anotherAt
        rwa [Nat.add_assoc, Nat.add_comm 1 place]
      rw [Nat.add_zero] at same
      simp only [prepareAll, same, following]

end

section

variable {table : SymbolTable} {id : Nat} {sect : Section} {prepared : Prepared}

/-- A chunk that could not be prepared has no span. -/
theorem unwatched_of_error (success : prepareAll table id 0 sect.chunks = .ok prepared)
    {place : Nat} {chunk : Chunk} (chunkAt : sect.chunks[place]? = some chunk)
    (fails : ∀ spans, (chunk.prepare table id place).2 ≠ .ok spans) (purpose : Purpose) :
    ¬ (prepared.relaxation id).Watches place purpose := by
  rintro ⟨span, member, here, _⟩
  obtain ⟨other, otherChunk, otherAt, registered⟩ := (mem_prepareAll_spans success).mp member
  obtain ⟨_, spans, result, spanMember⟩ := Chunk.prepare_of_mem_preparedSpans registered
  have same : other = place := (span_of_prepare result id spanMember).1.symm.trans here
  subst same
  rw [chunkAt, Option.some.injEq] at otherAt
  subst otherAt
  exact fails spans (by rw [result])

/-- Settling keeps one slot for each chunk. -/
theorem length_settle (prepared : Prepared) (id : Nat) (maxPasses : Int) :
    ((prepared.relaxation id).settle maxPasses).slots.length = prepared.chunks.length := by
  rw [(frame_settle prepared id maxPasses).length, Prepared.relaxation, List.length_map]

section

variable (success : prepareAll table id 0 sect.chunks = .ok prepared)
include success

/-- Recording a layout keeps the number of chunks. -/
theorem length_recorded
    (slots : relaxed.slots.length = prepared.chunks.length) :
    (sect.recorded prepared relaxed).sect.chunks.length = sect.chunks.length := by
  simp only [Section.recorded, List.length_zipWith, slots, Nat.min_self]
  rw [(prepareAll_eq success).1, List.length_map, List.length_zipIdx]

/-- The chunks of a layout are prepared again to what they were. -/
theorem prepareAll_recorded (maxPasses : Int) :
    prepareAll table id 0
        (sect.recorded prepared ((prepared.relaxation id).settle maxPasses)).sect.chunks =
      .ok prepared := by
  have frame := frame_settle prepared id maxPasses
  rw [← success]
  apply prepareAll_congr
  · exact length_recorded success (length_settle prepared id maxPasses)
  · intro place chunk other chunkAt otherAt
    obtain ⟨before, slot, beforeAt, slotAt, rfl⟩ := Section.getElem?_recorded otherAt
    have startAt : (prepared.relaxation id).slots[place]? = some before.slot := by
      rw [Prepared.relaxation, List.getElem?_map, beforeAt, Option.map_some]
    rw [prepareAll_getElem? success, chunkAt, Option.map_some, Option.some.injEq] at beforeAt
    subst beforeAt
    rw [Nat.zero_add]
    apply Chunk.prepare_repeats
    intro fails
    have kept := (frame.slots startAt slotAt).near fun length =>
      unwatched_of_error success chunkAt fails (.branch length)
    cases result : chunk.prepare table id place with
    | mk changed outcome =>
      cases outcome with
      | ok spans => exact absurd (by rw [result]) (fails spans)
      | error halt =>
        obtain ⟨_, rfl, _⟩ := prepare_failed result
        rw [kept, result]

/-- Recording a layout keeps the lines of chunks. -/
theorem line_recorded
    (slots : relaxed.slots.length = prepared.chunks.length) (place : Nat) :
    (sect.recorded prepared relaxed).sect.chunks[place]?.map Chunk.line =
      sect.chunks[place]?.map Chunk.line := by
  cases chunkAt : (sect.recorded prepared relaxed).sect.chunks[place]? with
  | none =>
    rw [List.getElem?_eq_none_iff, length_recorded success slots] at chunkAt
    rw [List.getElem?_eq_none chunkAt]
  | some chunk =>
    obtain ⟨before, slot, beforeAt, _, rfl⟩ := Section.getElem?_recorded chunkAt
    rw [prepareAll_getElem? success, Option.map_eq_some_iff] at beforeAt
    obtain ⟨source, sourceAt, rfl⟩ := beforeAt
    obtain ⟨body, slot, same, _⟩ := source.prepare_body table id place
    rw [sourceAt, same]
    rfl

/-- A problem is reported alike before and after a layout. -/
theorem reportProblem_recorded
    (slots : relaxed.slots.length = prepared.chunks.length) :
    (sect.recorded prepared relaxed).sect.reportProblem = sect.reportProblem := by
  funext problem
  unfold Section.reportProblem
  cases problem.index with
  | none => rfl
  | some place =>
    dsimp only
    rw [line_recorded success slots]
    rfl

end

/-- The layout of a section that was laid out is the layout that it has. -/
theorem layout_again {maxPasses : Int}
    (success : sect.layout table maxPasses id = .ok layout) :
    layout.sect.layout table maxPasses id = .ok layout := by
  obtain ⟨prepared, prepares, rfl⟩ := layout_eq_ok_iff.mp success
  refine layout_eq_ok_iff.mpr ⟨prepared, prepareAll_recorded prepares maxPasses, ?_⟩
  have reports := reportProblem_recorded prepares (length_settle prepared id maxPasses)
  generalize (prepared.relaxation id).settle maxPasses = relaxed at reports ⊢
  rw [Section.recorded, reports]
  rfl

end

/-- Laying out a section again gives the layout that it has, and adds its reports to those there
are. -/
theorem layoutSection_again {object once : Object} {id : Nat}
    (success : object.layoutSection id = .ok (once, layout)) (reports : List Diagnostic) :
    ({ once with diagnostics := reports } : Object).layoutSection id =
      .ok ({ once with diagnostics := reports ++ layout.diagnostics }, layout) := by
  obtain ⟨sect, found, lays, recorded, _⟩ := layoutSection_ok success
  obtain ⟨table, limit, _⟩ := layoutSection_frame success
  have again := layout_again lays
  rw [← table, ← limit] at again
  have same := @layoutSection_eq { once with diagnostics := reports } layout.sect id recorded
  rw [again] at same
  rw [same]
  have unchanged : once.sections.set id layout.sect = once.sections := by
    obtain ⟨inRange, same⟩ := List.getElem?_eq_some_iff.mp recorded
    rw [← same, List.set_getElem_self]
  simp only [Except.map, unchanged]

/-- Laying out a section any number of times gives the layout that it has each time, and repeats its
reports as often. -/
theorem layoutSections_replicate {object : Object} {id : Nat}
    (lays : ∀ reports, ({ object with diagnostics := reports } : Object).layoutSection id =
      .ok ({ object with diagnostics := reports ++ layout.diagnostics }, layout)) (times : Nat)
    (reports : List Diagnostic) :
    ({ object with diagnostics := reports } : Object).layoutSections (List.replicate times id) =
      .ok ({ object with
        diagnostics := reports ++ (List.replicate times layout.diagnostics).flatten },
        List.replicate times layout) := by
  induction times generalizing reports with
  | zero =>
    rw [List.replicate_zero, List.replicate_zero, List.flatten_nil, List.append_nil]
    rfl
  | succ times ih =>
    simp only [List.replicate_succ, Object.layoutSections, lays, ih, bind, Except.bind, pure,
      Except.pure, List.flatten_cons, List.append_assoc]

/-- A section that was laid out, with or without problems, is left exactly as it is when it is laid
out again: its chunks, spans, size, statistics and failure, and with them what the layout returns.
Only the reports of the object grow, by the same entries each time. -/
theorem layoutSection_repeats {object once : Object} {id : Nat} {layout : Layout}
    (success : object.layoutSection id = .ok (once, layout)) :
    once.sections[id]? = some layout.sect ∧
      once.diagnostics = object.diagnostics ++ layout.diagnostics ∧
      once.layoutSection id =
        .ok ({ once with diagnostics := once.diagnostics ++ layout.diagnostics }, layout) ∧
      ∀ times, once.layoutSections (List.replicate times id) =
        .ok ({ once with
          diagnostics := once.diagnostics ++ (List.replicate times layout.diagnostics).flatten },
          List.replicate times layout) := by
  obtain ⟨sect, found, lays, recorded, _⟩ := layoutSection_ok success
  refine ⟨recorded, ?_, layoutSection_again success once.diagnostics, fun times =>
    layoutSections_replicate (layoutSection_again success) times once.diagnostics⟩
  rw [layoutSection_eq found, lays] at success
  cases success
  rfl

/-- A jump over the chunk that follows two of them. -/
def jumpOver : Branch := Machine.jmp (.ofLocation ⟨0, 3, 0⟩)

/-- Two jumps that have to grow while the limit on passes leaves no growths, a branch that cannot be
measured and was near before, data whose second field cannot be settled, and a part of given bytes.
-/
def unsettled : Object where
  maxPasses := 4611686018427387904
  sections :=
    [{ name := ".text"
       chunks :=
        [{ body := .branch jumpOver }, { body := .branch jumpOver },
          { body := .reserve (.ofInt 300) 1 },
          { body := .branch { jumpOver with nearWidth := 12 }, slot := { near := true } },
          { body := .data
              [.field { expr := .ofSymbol 1, width := 32 },
                .field { expr := ⟨0, [⟨2, .symbol 1⟩]⟩, width := 32 }] },
          { body := .binary { name := "logo", data := [1, 2, 3], start := some (.ofInt 2) } }] }]
  table := { symbols := [{ name := "x", meaning := .imported }] }

/-- All the problems of the section are met again, one growth is recorded and one jump stays short,
and the branch that was near still is. -/
theorem unsettled_repeats :
    ∃ once layout, unsettled.layoutSection 0 = .ok (once, layout) ∧
      layout.diagnostics.length = 3 ∧ layout.sect.failed = true ∧
      layout.sect.slots.map Slot.near = [true, false, false, true, false, false] ∧
      once.layoutSection 0 =
        .ok ({ once with diagnostics := layout.diagnostics ++ layout.diagnostics }, layout) := by
  obtain ⟨⟨once, layout⟩, success, reports, failed, forms⟩ :=
    exists_ok_of_any (unsettled.layoutSection 0)
      (p := fun result => result.2.diagnostics.length = 3 ∧ result.2.sect.failed = true ∧
        result.2.sect.slots.map Slot.near = [true, false, false, true, false, false])
      (by decide +kernel)
  obtain ⟨_, before, again, _⟩ := layoutSection_repeats success
  rw [before] at again
  exact ⟨once, layout, success, reports, failed, forms, again⟩

end Assembler
