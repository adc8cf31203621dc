import Assembler.Proofs.Layout.Advance
import Assembler.Proofs.Layout.Circularity
import Assembler.Proofs.Relaxation.Verdict

/-!
# Negative counts

A count that is a distance is refused as negative at the offsets of the turn in which its span is
worked on, when other chunks may still be in their shortest form. `negative_repeat_judged` says what
the distance is in the end: it has changed by the growth of every chunk since, times the weight of
the chunk in the count. Only if no chunk with a positive weight has grown is it sure to be negative.
-/

namespace Assembler

variable {relaxed : Relaxation} {span : Span}

/-- A chunk that is no padding has no rule for its length, also if it could not be prepared. -/
theorem plain_prepare {chunk : Chunk} (unruled : chunk.kind.role ≠ .offsetSetter)
    (table : SymbolTable) (sectionId index : Nat) :
    (chunk.prepare table sectionId index).1.slot.Plain := by
  refine ⟨?_, (proper_prepare chunk table sectionId index).copies⟩
  cases result : chunk.prepare table sectionId index with
  | mk changed outcome =>
    cases outcome with
    | error halt =>
      obtain ⟨_, rfl, _⟩ := prepare_failed result
      rfl
    | ok spans =>
      obtain ⟨body, _, _, _, settled, _, measured, rfl, _⟩ := prepare_ok result
      have kind : body.kind = chunk.kind := Body.kind_of_settle settled
      exact (Body.measured_of_ok measured).setter_none (kind ▸ unruled)

section

variable {table : SymbolTable} {id : Nat} {sect : Section} {prepared : Prepared}

section

variable (success : prepareAll table id 0 sect.chunks = .ok prepared)
include success

/-- The slots of a section without padding are plain. -/
theorem plain_relaxation (unruled : ∀ chunk ∈ sect.chunks, chunk.kind.role ≠ .offsetSetter) :
    (prepared.relaxation id).IsPlain := by
  intro slot member
  obtain ⟨index, slotAt⟩ := List.mem_iff_getElem?.mp member
  rw [Prepared.relaxation, List.getElem?_map, prepareAll_getElem? success, Option.map_map,
    Option.map_eq_some_iff] at slotAt
  obtain ⟨chunk, chunkAt, rfl⟩ := slotAt
  exact plain_prepare (unruled chunk (List.mem_of_getElem? chunkAt)) table id index

/-- The span of a count watches what the repeat count of its chunk expands to. -/
theorem deferred_of_mem
    (frame : Relaxation.Frame (prepared.relaxation id) relaxed)
    (member : span ∈ relaxed.spans) (purpose : span.purpose = .copies) :
    ∃ chunk count expanded, sect.chunks[span.index]? = some chunk ∧ chunk.repeats = some count ∧
      table.expand count = .ok expanded ∧ expanded.isConstant = false ∧
      expanded.isDistance id = true ∧ span.field = { expr := expanded, line := chunk.line } := by
  obtain ⟨source, sourceMember, same⟩ := frame.original member
  obtain ⟨sameIndex, samePurpose, sameField, _⟩ := Span.agree_of_registered same
  rw [← samePurpose] at purpose
  rw [← sameIndex, ← sameField]
  obtain ⟨index, chunk, chunkAt, registered⟩ := (mem_prepareAll_spans success).mp sourceMember
  obtain ⟨changed, spans, result, spanMember⟩ := Chunk.prepare_of_mem_preparedSpans registered
  obtain ⟨body, copies, countSpan, measure, settled, counted, measuredOk, same, rfl⟩ :=
    prepare_ok result
  rcases List.mem_append.mp spanMember with countMember | form
  · obtain rfl := Option.mem_toList.mp countMember
    rcases initialCopies_ok counted with
      ⟨_, _, absent⟩ | ⟨count, expanded, repeats, _, expands, found⟩
    · cases absent
    · rcases found with ⟨_, _, _, _, absent⟩ | ⟨deferred, distance, _, _, watched⟩
      · cases absent
      · rw [Option.some.injEq] at watched
        subst watched
        exact ⟨chunk, count, expanded, chunkAt, repeats, expands, deferred, distance, rfl⟩
  · have forms := ((Body.measured_of_ok measuredOk).span_holds (Option.mem_toList.mp form) 0
      changed.slot (by rw [same]) (by rw [same])).2.2.1
    rw [purpose] at forms
    cases forms

/-- A chunk and a purpose have one span, which watches the same at all times. -/
theorem field_eq_of_registered {first second : Relaxation}
    (firstFrame : Relaxation.Frame (prepared.relaxation id) first)
    (secondFrame : Relaxation.Frame (prepared.relaxation id) second) {other : Span}
    (member : span ∈ first.spans) (otherMember : other ∈ second.spans)
    (together : other.index = span.index) (alike : other.purpose = span.purpose) :
    other.field = span.field := by
  obtain ⟨source, sourceMember, registered⟩ := firstFrame.original member
  obtain ⟨twin, twinMember, twinRegistered⟩ := secondFrame.original otherMember
  obtain ⟨index, purpose, field, _⟩ := Span.agree_of_registered registered
  obtain ⟨twinIndex, twinPurpose, twinField, _⟩ := Span.agree_of_registered twinRegistered
  have same : twin = source := List.inj_on_of_nodup_map (nodup_spanKeys success) twinMember
    sourceMember (by rw [twinIndex, twinPurpose, index, purpose, together, alike])
  rw [← twinField, ← field, same]

end

/-- A chunk whose count is watched has not failed at the first offsets because of its count. -/
theorem not_failedWith_start (success : prepareAll table id 0 sect.chunks = .ok prepared)
    (frame : Relaxation.Frame (prepared.relaxation id) relaxed)
    (member : span ∈ relaxed.spans) (value : Int) :
    ¬ (prepared.relaxation id).assignOffsets.FailedWith span.index (.negativeRepeat value) := by
  intro failed
  obtain ⟨slot, slotAt, known⟩ :=
    (Relaxation.FailedWith.assignOffsets_iff (by simp [Error.causes])).mp failed
  obtain ⟨source, sourceMember, same⟩ := frame.original member
  obtain ⟨index, chunk, _, registered⟩ := (mem_prepareAll_spans success).mp sourceMember
  obtain ⟨_, _, result, spanMember⟩ := Chunk.prepare_of_mem_preparedSpans registered
  have active := (span_of_prepare result id spanMember).2.1
  obtain ⟨found, foundAt, _, sound, _⟩ := (coherent_relaxation success).watched source sourceMember
  rw [(Span.agree_of_registered same).1, slotAt, Option.some.injEq] at foundAt
  rw [foundAt, sound active] at known
  cases known

/-- The turns of the loops keep what a layout's relaxation watches. -/
theorem frame_run (prepared : Prepared) (id : Nat) (maxPasses : Int) (turn : Nat) :
    Relaxation.Frame (prepared.relaxation id) (prepared.run id maxPasses turn).state :=
  (Relaxation.frame_preserved _).of_reaches (Relaxation.Loop.reaches_turns _ turn)
    (Relaxation.Frame.refl _).assignOffsets

/-- What the count of a chunk is judged by is the distance that its span watches. -/
theorem exactValue_of_judges (success : prepareAll table id 0 sect.chunks = .ok prepared)
    {loop : Relaxation.Loop} (looping : Relaxation.Frame (prepared.relaxation id) loop.state)
    (frame : Relaxation.Frame (prepared.relaxation id) relaxed)
    (member : span ∈ relaxed.spans) (purpose : span.purpose = .copies) {value : Int}
    (judges : loop.Judges span.index value) :
    loop.state.exactValue span.field = value ∧ value < 0 := by
  obtain ⟨place, rest, judged, _, verdict, here⟩ := judges
  obtain ⟨slot, firing⟩ := verdict.firing
  have same : judged.field = span.field :=
    field_eq_of_registered success frame looping member (List.mem_of_getElem? firing.spanAt) here
      (verdict.purpose.trans purpose.symm)
  exact ⟨same ▸ verdict.exact_eq, verdict.negative⟩

/-- Chunks only grow: none is padding, and no near form is shorter than the short one. -/
structure Section.OnlyGrows (sect : Section) : Prop where
  unruled : ∀ chunk ∈ sect.chunks, chunk.kind.role ≠ .offsetSetter
  longer : sect.Lengthens

/-- A span watches what the repeat count of its chunk expands to, which is a distance. -/
structure Section.CountedBy (sect : Section) (table : SymbolTable) (id : Nat) (span : Span) :
    Prop where
  given : ∃ chunk count, sect.chunks[span.index]? = some chunk ∧ chunk.repeats = some count ∧
    table.expand count = .ok span.field.expr
  distance : span.field.expr.isDistance id = true

/-- How a distance that was `value` at an earlier time has changed: by the growth of every chunk
since, times the weight of the chunk. If no chunk with a positive weight has grown, the distance is
negative in the end, too. -/
structure Section.GrownSince (sect laid : Section) (id : Nat) (earlier : Relaxation) (span : Span)
    (value : Int) (before : Nat → Nat) : Prop where
  standing : (laid.relaxed id).Standing (extentsOf laid.slots)
  stood : earlier.Standing before
  grows : ∀ index, before index ≤ extentsOf laid.slots index
  changed : (laid.relaxed id).exactValue span.field =
    value + ∑ index ∈ Finset.range sect.chunks.length,
      span.field.expr.weightBehind index * (extentsOf laid.slots index - before index : Int)
  stays : (∀ index, before index < extentsOf laid.slots index →
    span.field.expr.weightBehind index ≤ 0) → (laid.relaxed id).exactValue span.field < 0

section

variable {maxPasses : Int} {turns : Nat} {converged : Bool}
  (success : prepareAll table id 0 sect.chunks = .ok prepared)
  (leaves : prepared.Leaves id maxPasses turns converged)
include success leaves

/-- A chunk whose count is watched is refused because of a negative count exactly if a turn has
judged it so. -/
theorem failedWith_settle_iff
    (member : span ∈ ((prepared.relaxation id).settle maxPasses).spans) {value : Int} :
    ((prepared.relaxation id).settle maxPasses).FailedWith span.index (.negativeRepeat value) ↔
      ∃ turn < turns, (prepared.run id maxPasses turn).Judges span.index value := by
  have fresh : ¬ (prepared.relaxation id).assignOffsets.FailedWith span.index
      (.negativeRepeat value) :=
    not_failedWith_start success (frame_settle prepared id maxPasses) member value
  have last : ((prepared.relaxation id).settle maxPasses).FailedWith span.index
      (.negativeRepeat value) ↔ (prepared.run id maxPasses turns).state.FailedWith span.index
        (.negativeRepeat value) := by
    rw [leaves.settles]
    cases converged with
    | false => rfl
    | true => exact Relaxation.FailedWith.assignOffsets_iff (by simp [Error.causes])
  rw [last]
  exact Relaxation.failedWith_turns_iff.trans (or_iff_right fresh)

variable (grows : sect.OnlyGrows)
include grows

/-- In a section without padding whose chunks only grow, chunks end where their final extents put
them, and they stood by extents that are at most these at every turn before. -/
theorem exists_standing_before
    (bounded : ((prepared.relaxation id).settle maxPasses).exactSize < 2 ^ 64) {turn : Nat}
    (earlier : turn ≤ turns) :
    let last := (prepared.relaxation id).settle maxPasses
    last.Standing (extentsOf last.slots) ∧
      ∃ before, (prepared.run id maxPasses turn).state.Standing before ∧
        ∀ index, before index ≤ extentsOf last.slots index := by
  intro last
  have growing : Relaxation.Growing (prepared.relaxation id)
      (prepared.relaxation id).assignOffsets :=
    ⟨(Relaxation.Frame.refl _).assignOffsets, (coherent_relaxation success).assignOffsets,
      (plain_relaxation success grows.unruled).assignOffsets⟩
  have plain : (prepared.run id maxPasses turns).state.IsPlain :=
    (growing.of_reaches (Relaxation.Loop.reaches_turns ⟨_, .pass⟩ turns)).plain
  -- The last assignment of offsets moves chunks, but none gets longer.
  have final : last.IsPlain ∧ last.slots.map Slot.extent =
      (prepared.run id maxPasses turns).state.slots.map Slot.extent := by
    simp only [last, leaves.settles]
    cases converged with
    | false => exact ⟨plain, rfl⟩
    | true => exact ⟨plain.assignOffsets, map_extent_placeSlots plain 0⟩
  refine ⟨(Relaxation.contiguous_settle (coherent_relaxation success) maxPasses).standing final.1
    bounded, ?_⟩
  rw [extentsOf_congr final.2]
  have counted : (prepared.run id maxPasses turns).state.exactSize < 2 ^ 64 := by
    rw [Relaxation.exactSize, ← final.2]
    exact bounded
  exact growing.exists_standing_le (growable_relaxation success grows.longer)
    (nodup_spanKeys success) (contiguous_placeSlots 0 _) earlier counted

/-- A distance in such a section has changed since a turn by the weight of each chunk times its
growth. -/
theorem exactValue_since {expanded : Expr} (deferred : expanded.isConstant = false)
    (distance : expanded.isDistance id = true) (line : Int)
    (fits : ∀ location ∈ expanded.places,
      ((prepared.relaxation id).settle maxPasses).exactSize + location.offset.toNat < 2 ^ 64)
    {turn : Nat} (earlier : turn ≤ turns) :
    let last := (prepared.relaxation id).settle maxPasses
    let after := extentsOf last.slots
    last.Standing after ∧
      ∃ before, (prepared.run id maxPasses turn).state.Standing before ∧
        (∀ index, before index ≤ after index) ∧
        last.exactValue { expr := expanded, line } =
          (prepared.run id maxPasses turn).state.exactValue { expr := expanded, line } +
            ∑ index ∈ Finset.range sect.chunks.length,
              expanded.weightBehind index * (after index - before index : Int) := by
  intro last after
  have frame := frame_settle prepared id maxPasses
  have framed := frame_run prepared id maxPasses turn
  -- A count that is no constant measures from some position, so that words can count the section.
  obtain ⟨term, termMember⟩ := List.exists_mem_of_ne_nil expanded.terms
    (by simpa [Expr.isConstant] using deferred)
  obtain ⟨location, base⟩ := Expr.exists_place distance termMember
  have bounded : last.exactSize < 2 ^ 64 :=
    Nat.lt_of_le_of_lt (Nat.le_add_right _ _)
      (fits location (Expr.mem_places.mpr ⟨term, termMember, base⟩))
  obtain ⟨standing, before, stood, le⟩ :=
    exists_standing_before success leaves grows bounded earlier
  refine ⟨standing, before, stood, le, ?_⟩
  refine Relaxation.exactValue_grown (frame.home.trans framed.home.symm) stood standing le
    (fun index outside => extentsOf_of_length_le ?_) (by rw [framed.home]; exact distance) rfl rfl
    fun location member => ?_
  · rw [frame.length, Prepared.relaxation, List.length_map, (prepareAll_eq success).1,
      List.length_map, List.length_zipIdx]
    exact outside
  · rw [sum_extentsOf]
    exact Nat.lt_of_le_of_lt (Nat.add_le_add_right (take_sum_le _ _) _) (fits location member)

end

/-- A chunk whose count is watched is refused because of a negative count exactly if the count,
which is a distance, was negative at the offsets of a turn that worked on its span. In a section
whose chunks only grow, the distance has changed since by the weight of each chunk times the growth
of the chunk (`Section.GrownSince`). -/
theorem negative_repeat_judged (resolved : prepareAll table id 0 sect.chunks = .ok prepared)
    (maxPasses : Int) :
    ∃ turns converged layout, (prepared.run id maxPasses turns).phase = .done converged ∧
      sect.layout table maxPasses id = .ok layout ∧
      ∀ span ∈ layout.sect.spans, span.purpose = .copies →
        sect.CountedBy table id span ∧
        ∀ chunk value, layout.sect.chunks[span.index]? = some chunk →
          (chunk.slot.error = some (.negativeRepeat value) ↔
            ∃ turn < turns, (prepared.run id maxPasses turn).Judges span.index value) ∧
          ∀ turn < turns, (prepared.run id maxPasses turn).Judges span.index value →
            (prepared.run id maxPasses turn).state.exactValue span.field = value ∧ value < 0 ∧
            (sect.OnlyGrows →
              (∀ location ∈ span.field.expr.places,
                (layout.sect.slots.map Slot.extent).sum + location.offset.toNat < 2 ^ 64) →
              ∃ before, sect.GrownSince layout.sect id (prepared.run id maxPasses turn).state span
                value before) := by
  obtain ⟨turns, converged, leaves⟩ := prepared.exists_leaves id maxPasses
  have frame := frame_settle prepared id maxPasses
  have slots : (sect.recorded prepared ((prepared.relaxation id).settle maxPasses)).sect.slots =
      ((prepared.relaxation id).settle maxPasses).slots :=
    slots_recorded (frame.length.trans (List.length_map _))
  refine ⟨turns, converged, _, leaves.done, layout_eq_ok_iff.mpr ⟨prepared, resolved, rfl⟩, ?_⟩
  intro span member purpose
  obtain ⟨source, count, expanded, sourceAt, repeats, expands, deferred, distance, field⟩ :=
    deferred_of_mem resolved frame member purpose
  obtain rfl : span.field.expr = expanded := by rw [field]
  refine ⟨⟨⟨source, count, sourceAt, repeats, expands⟩, distance⟩, ?_⟩
  intro chunk value chunkAt
  constructor
  · rw [← failedWith_settle_iff resolved leaves member]
    obtain ⟨_, slot, _, slotAt, rfl⟩ := Section.getElem?_recorded chunkAt
    simp [Relaxation.FailedWith, slotAt]
  intro turn earlier judges
  obtain ⟨measured, negative⟩ := exactValue_of_judges resolved
    (frame_run prepared id maxPasses turn) frame member purpose judges
  refine ⟨measured, negative, ?_⟩
  intro grows fits
  rw [slots] at fits
  obtain ⟨standing, before, stood, le, grown⟩ := exactValue_since resolved leaves grows deferred
    distance source.line fits earlier.le
  have same : Relaxation.SameOffsets ((prepared.relaxation id).settle maxPasses)
      ((sect.recorded prepared ((prepared.relaxation id).settle maxPasses)).sect.relaxed id) :=
    Relaxation.sameOffsets_of_map frame.home.symm (by rw [Section.relaxed, slots]) rfl
  rw [← slots] at standing le grown
  rw [← field, measured] at grown
  have changed := (same.exactValue_eq span.field).trans grown
  refine ⟨before, standing.congr same, stood, le, changed, fun harmless => ?_⟩
  have shrunk := sum_weight_nonpos le harmless sect.chunks.length
  omega

end

/-- A jump over two hundred bytes. -/
def longJump (target : Nat) : List Chunk :=
  [{ body := .branch (Machine.jmp (.ofLocation ⟨0, target, 0⟩)) },
    { body := .reserve (.ofInt 200) 1 }]

/-- The bytes that a chunk has beyond four. -/
def excessOf (index : Nat) : Expr where
  constant := -4
  terms := [⟨-1, .place ⟨0, index, 0⟩⟩, ⟨1, .place ⟨0, index + 1, 0⟩⟩]

/-- The bytes that a jump has beyond four, counted before the jump. -/
def hastyCount : Section where
  name := ".text"
  chunks := { body := .data [.bytes [0x90]], repeats := some (excessOf 1) } :: longJump 3

/-- The bytes that a jump has beyond four, counted behind the jump. -/
def patientCount : Section where
  name := ".text"
  chunks := longJump 2 ++ [{ body := .data [.bytes [0x90]], repeats := some (excessOf 0) }]

/-- Before the jump the count is refused: it was -2 as long as the jump was short, and is 1 in the
end. Behind the jump the same count is 1 from the first time that it is looked at. -/
theorem hastyCount_judged :
    ∃ layout, hastyCount.layout {} 0 0 = .ok layout ∧
      layout.diagnostics.map Diagnostic.error = [.negativeRepeat (-2)] ∧
      (∃ span ∈ layout.sect.spans, span.purpose = .copies ∧ span.index = 0 ∧
        (layout.sect.relaxed 0).exactValue span.field = 1 ∧
        ∃ before after : Nat → Nat, (∀ index, before index ≤ after index) ∧
          (layout.sect.relaxed 0).Standing after ∧
          1 = -2 + ∑ index ∈ Finset.range 3,
            span.field.expr.weightBehind index * (after index - before index : Int)) ∧
      ∃ patient, patientCount.layout {} 0 0 = .ok patient ∧ patient.diagnostics = [] ∧
        patient.sect.slots.map Slot.copies = [1, 1, 1] := by
  obtain ⟨prepared, resolved, _⟩ := exists_ok_of_any (p := fun _ => True)
    (prepareAll {} 0 0 hastyCount.chunks) (by decide +kernel)
  obtain ⟨turns, converged, layout, _, success, judged⟩ := negative_repeat_judged resolved 0
  obtain ⟨found, foundOk, reports, small, span, member, purpose, first, final, chunk, chunkAt,
    failed⟩ := exists_ok_of_any
    (p := fun layout => layout.diagnostics.map Diagnostic.error = [.negativeRepeat (-2)] ∧
      (layout.sect.slots.map Slot.extent).sum < 1000 ∧
      ∃ span ∈ layout.sect.spans, span.purpose = .copies ∧ span.index = 0 ∧
        (layout.sect.relaxed 0).exactValue span.field = 1 ∧
        ∃ chunk ∈ layout.sect.chunks[span.index]?, chunk.slot.error = some (.negativeRepeat (-2)))
    (hastyCount.layout {} 0 0) (by decide +kernel)
  rw [success, Except.ok.injEq] at foundOk
  subst foundOk
  obtain ⟨patient, patientOk, clean, counted⟩ := exists_ok_of_any
    (p := fun layout => layout.diagnostics = [] ∧
      layout.sect.slots.map Slot.copies = [1, 1, 1])
    (patientCount.layout {} 0 0) (by decide +kernel)
  refine ⟨layout, success, reports, ⟨span, member, purpose, first, final, ?_⟩, patient, patientOk,
    clean, counted⟩
  obtain ⟨⟨⟨source, count, sourceAt, repeats, expands⟩, _⟩, verdict⟩ := judged span member purpose
  obtain ⟨refused, since⟩ := verdict chunk (-2) chunkAt
  obtain ⟨turn, earlier, judges⟩ := refused.mp failed
  have labels : ∀ location ∈ span.field.expr.places, location.offset = 0 := by
    rw [first] at sourceAt
    obtain rfl := Option.some.inj sourceAt
    obtain rfl : excessOf 1 = count := Option.some.inj repeats
    obtain ⟨counted, countedOk, labels⟩ := exists_ok_of_any
      (p := fun expanded => ∀ location ∈ expanded.places, location.offset = 0)
      (SymbolTable.expand {} (excessOf 1)) (by decide +kernel)
    rw [expands, Except.ok.injEq] at countedOk
    exact countedOk ▸ labels
  have longer : hastyCount.Lengthens := by
    intro chunk member jump isBranch _
    simp only [hastyCount, longJump, List.mem_cons, List.not_mem_nil, or_false] at member
    rcases member with rfl | rfl | rfl
    · cases isBranch
    · cases isBranch
      decide
    · cases isBranch
  have fits : ∀ location ∈ span.field.expr.places,
      (layout.sect.slots.map Slot.extent).sum + location.offset.toNat < 2 ^ 64 := by
    intro location placed
    rw [labels location placed]
    exact small.trans (by decide)
  obtain ⟨before, grown⟩ := (since turn earlier judges).2.2 ⟨by decide, longer⟩ fits
  exact ⟨before, _, grown.grows, grown.standing, final ▸ grown.changed⟩

end Assembler
