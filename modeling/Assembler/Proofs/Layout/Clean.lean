import Assembler.Object
import Assembler.Proofs.Layout.Start
import Assembler.Proofs.Relaxation.Convergence

/-!
# Layouts without an error

A layout that reports no error leaves nothing that fires, and its last assignment of offsets moved
nothing, so spans, slots and offsets agree with each other (`clean_layout`). `Origin` tells where a
chunk of such a layout comes from: how its fields, its number of copies and its length were found
before the relaxation, and what the relaxation may have changed since.
-/

namespace Assembler

/-- A section as a relaxation sees it. -/
def Section.relaxed (sect : Section) (id : Nat) : Relaxation :=
  { home := id, slots := sect.slots, spans := sect.spans, size := sect.size }

variable {relaxed : Relaxation} {maxPasses : Int} {layout : Layout}

/-- Errors side by side are none only if there is none. -/
theorem Error.all_eq_none_iff {errors : List Error} : Error.all errors = none ↔ errors = [] := by
  cases errors with
  | nil => simp [Error.all]
  | cons first rest =>
    simp only [Error.all, reduceCtorEq, iff_false]
    split <;> simp

/-- A layout reports no error exactly when its relaxation met no problem: every problem stops the
output. -/
theorem recorded_error_eq_none_iff {sect : Section} {prepared : Prepared} :
    (sect.recorded prepared relaxed).error = none ↔ relaxed.problems = [] := by
  have serious : ∀ problem : LayoutProblem,
      (sect.reportProblem problem).severity.isError = true := by
    intro problem
    unfold Section.reportProblem
    split <;> rfl
  simp only [Layout.error, Diagnostic.errors, Error.all_eq_none_iff, List.map_eq_nil_iff,
    List.filter_eq_nil_iff, Section.recorded, List.mem_map]
  constructor
  · intro quiet
    rw [List.eq_nil_iff_forall_not_mem]
    intro problem member
    exact quiet _ ⟨problem, member, rfl⟩ (serious problem)
  · rintro none _ ⟨problem, member, rfl⟩
    rw [none] at member
    cases member

/-- A relaxation without a problem at the end has converged, and its last assignment of offsets
moved nothing. -/
theorem Relaxation.collect_settle {state : Relaxation} (orderly : state.assignOffsets.Orderly)
    (clean : (state.settle maxPasses).problems = []) :
    (state.settle maxPasses).collect [] = [] := by
  obtain ⟨last, passes, settled⟩ := exists_passes_of_clean orderly.coherent clean
  have ending := passesFor_ending orderly.coherent maxPasses
  have reached : state.assignOffsets.Reaches (state.passesFor maxPasses).1 :=
    reaches_runPasses ..
  rw [passes] at ending reached
  rw [settled] at clean ⊢
  have quiet : last.problems = [] := (List.append_eq_nil_iff.mp clean).1
  have contiguous := (orderly_preserved.of_reaches reached orderly).contiguous quiet
  rw [assignOffsets_eq_self contiguous]
  exact ending.collect_nil

section

variable {table : SymbolTable} {id : Nat} {chunks : List Chunk} {prepared : Prepared}

/-- No span has failed at the start of a relaxation. -/
theorem kept_prepareAll (success : prepareAll table id 0 chunks = .ok prepared) :
    ∀ span ∈ (prepared.relaxation id).spans, span.state ≠ .failed := by
  intro span member
  obtain ⟨index, chunk, _, registered⟩ := (mem_prepareAll_spans success).mp member
  obtain ⟨_, _, result, spanMember⟩ := Chunk.prepare_of_mem_preparedSpans registered
  rw [(span_of_prepare result id spanMember).2.1]
  exact SpanState.noConfusion

/-- What a relaxation of prepared chunks leaves alone. -/
theorem frame_settle (prepared : Prepared) (id : Nat) (maxPasses : Int) :
    Relaxation.Frame (prepared.relaxation id) ((prepared.relaxation id).settle maxPasses) :=
  (Relaxation.frame_preserved (prepared.relaxation id)).of_reaches
    (Relaxation.reaches_settle (prepared.relaxation id) maxPasses)
    (Relaxation.Frame.refl _).assignOffsets

/-- A relaxation that ends without a problem has started without one. -/
theorem problems_of_settle
    (clean : ((prepared.relaxation id).settle maxPasses).problems = []) : prepared.problems = [] :=
  List.prefix_nil.mp (clean ▸ (frame_settle prepared id maxPasses).problems)

/-- The end of a relaxation without a problem: everything agrees, nothing fires, and what no span
watches is as it was. -/
theorem settle_of_clean (success : prepareAll table id 0 chunks = .ok prepared)
    (clean : ((prepared.relaxation id).settle maxPasses).problems = []) :
    ((prepared.relaxation id).settle maxPasses).Orderly ∧
      ((prepared.relaxation id).settle maxPasses).collect [] = [] ∧
      Relaxation.Frame (prepared.relaxation id) ((prepared.relaxation id).settle maxPasses) := by
  have orderly : (prepared.relaxation id).assignOffsets.Orderly :=
    Relaxation.orderly_assignOffsets (coherent_relaxation success)
      (fun _ => kept_prepareAll success) (sound_prepareAll success)
  have reached := Relaxation.reaches_settle (prepared.relaxation id) maxPasses
  exact ⟨Relaxation.orderly_preserved.of_reaches reached orderly,
    Relaxation.collect_settle orderly clean,
    frame_settle prepared id maxPasses⟩

/-- The spans of a chunk's number are those that its preparation registers. -/
theorem span_of_index (success : prepareAll table id 0 chunks = .ok prepared) {index : Nat}
    {chunk changed : Chunk} {spans : List Span} (chunkAt : chunks[index]? = some chunk)
    (result : chunk.prepare table id index = (changed, .ok spans)) {span : Span}
    (member : span ∈ prepared.spans) (here : span.index = index) : span ∈ spans := by
  obtain ⟨other, otherChunk, otherAt, registered⟩ := (mem_prepareAll_spans success).mp member
  obtain ⟨_, otherSpans, otherResult, spanMember⟩ := Chunk.prepare_of_mem_preparedSpans registered
  have same : other = index := (span_of_prepare otherResult id spanMember).1.symm.trans here
  subst same
  rw [chunkAt, Option.some.injEq] at otherAt
  subst otherAt
  rw [result, Prod.mk.injEq, Except.ok.injEq] at otherResult
  rwa [otherResult.2]

end

/-- More purposes watched explain more changes. -/
theorem Slot.Evolves.mono {watching others : Purpose → Prop} {old new : Slot}
    (evolves : old.Evolves watching new) (more : ∀ purpose, watching purpose → others purpose) :
    old.Evolves others new where
  setter := evolves.setter
  copies := fun unwatched => evolves.copies fun watched => unwatched (more _ watched)
  near := fun unwatched => evolves.near fun length watched => unwatched length (more _ watched)
  length := fun unwatched short ruleless =>
    evolves.length (fun signed watched => unwatched signed (more _ watched))
      (short.imp (fun unwatched length watched => unwatched length (more _ watched)) id) ruleless

/-- Where a chunk of a layout without an error comes from. -/
structure Origin (table : SymbolTable) (id index : Nat) (sect : Section) (chunk : Chunk) where
  /-- The chunk before the layout. -/
  source : Chunk
  /-- The body with its fields settled. -/
  body : Body
  /-- The number of copies that the layout started from. -/
  copies : Int64
  countSpan : Option Span
  measure : Measure
  settled : source.body.settle table id index source.line = (body, none)
  counted : source.initialCopies table id index = .ok (copies, countSpan)
  measured : body.Measured table index source.repeats.isSome copies measure
  recorded : chunk = { source with body := measure.body, slot := chunk.slot }
  /-- The slot has changed only in what the spans of the chunk watch. -/
  evolves :
    ({ length := measure.length, copies, near := measure.near, setter := measure.setter } :
      Slot).Evolves
      (fun purpose => ∃ span ∈ countSpan.toList ++ measure.span.toList, span.purpose = purpose)
      chunk.slot
  /-- The spans of the chunk are among those of the section. -/
  watched : ∀ span ∈ countSpan.toList ++ measure.span.toList,
    ∃ final ∈ sect.spans, final.registered = span.registered

namespace Origin

variable {table : SymbolTable} {id index : Nat} {sect : Section} {chunk : Chunk}

/-- A chunk has the repeat count of its source. -/
theorem repeats_eq (origin : Origin table id index sect chunk) :
    origin.source.repeats = chunk.repeats :=
  (congrArg Chunk.repeats origin.recorded).symm

/-- The body of a chunk is the one that was measured, unless it is a part of given bytes. -/
theorem body_eq (origin : Origin table id index sect chunk) (other : chunk.body.kind ≠ .binary) :
    origin.body = chunk.body := by
  have same : chunk.body = origin.measure.body := congrArg Chunk.body origin.recorded
  rw [same, origin.measured.kind_eq] at other
  rw [same, origin.measured.body_eq other]

end Origin

/-- A section that was laid out without an error. -/
structure Section.Clean (sect : Section) (table : SymbolTable) (id : Nat) : Prop where
  orderly : (sect.relaxed id).Orderly
  quiet : ∀ span ∈ sect.spans, (sect.relaxed id).isPending span = false
  origin : ∀ {index : Nat} {chunk : Chunk}, sect.chunks[index]? = some chunk →
    Nonempty (Origin table id index sect chunk)
  /-- Every span is one of its chunk's. -/
  registered : ∀ span ∈ sect.spans, ∃ chunk, sect.chunks[span.index]? = some chunk ∧
    ∃ origin : Origin table id span.index sect chunk,
      ∃ original ∈ origin.countSpan.toList ++ origin.measure.span.toList,
        original.registered = span.registered

section

variable {table : SymbolTable} {id : Nat} {sect : Section} {prepared : Prepared}

/-- The slots of a layout are those of its relaxation. -/
theorem slots_recorded (same : relaxed.slots.length = prepared.chunks.length) :
    (sect.recorded prepared relaxed).sect.slots = relaxed.slots := by
  simp only [Section.slots, Section.recorded, List.map_zipWith]
  apply List.ext_getElem?
  intro index
  rw [List.getElem?_zipWith]
  rcases Nat.lt_or_ge index relaxed.slots.length with inRange | beyond
  · rw [List.getElem?_eq_getElem inRange, List.getElem?_eq_getElem (same ▸ inRange)]
  · rw [List.getElem?_eq_none beyond]
    split <;> simp_all

/-- A chunk that a layout records is the prepared one with the slot of the relaxation. -/
theorem Section.getElem?_recorded {place : Nat} {chunk : Chunk}
    (chunkAt : (sect.recorded prepared relaxed).sect.chunks[place]? = some chunk) :
    ∃ before slot, prepared.chunks[place]? = some before ∧ relaxed.slots[place]? = some slot ∧
      chunk = { before with slot } := by
  simp only [Section.recorded, List.getElem?_zipWith] at chunkAt
  cases beforeAt : prepared.chunks[place]? with
  | none => simp [beforeAt] at chunkAt
  | some before =>
    cases slotAt : relaxed.slots[place]? with
    | none => simp [beforeAt, slotAt] at chunkAt
    | some slot =>
      simp only [beforeAt, slotAt, Option.some.injEq] at chunkAt
      exact ⟨before, slot, rfl, rfl, chunkAt.symm⟩

/-- A chunk that was prepared has the slot that the relaxation gave it. -/
theorem origin_of_prepare (success : prepareAll table id 0 sect.chunks = .ok prepared)
    (frame : Relaxation.Frame (prepared.relaxation id) relaxed) {index : Nat}
    {source changed : Chunk} {spans : List Span} {slot : Slot}
    (sourceAt : sect.chunks[index]? = some source)
    (result : source.prepare table id index = (changed, .ok spans))
    (slotAt : relaxed.slots[index]? = some slot) :
    ∃ origin : Origin table id index (sect.recorded prepared relaxed).sect { changed with slot },
      origin.source = source ∧
        spans = origin.countSpan.toList ++ origin.measure.span.toList := by
  obtain ⟨body, copies, countSpan, measure, settled, counted, measured, same, rfl⟩ :=
    prepare_ok result
  have startAt : (prepared.relaxation id).slots[index]? = some changed.slot := by
    rw [Prepared.relaxation, List.getElem?_map, prepareAll_getElem? success, sourceAt,
      Option.map_some, Option.map_some, result]
  have evolves := frame.slots startAt slotAt
  rw [same] at evolves
  refine ⟨⟨source, body, copies, countSpan, measure, settled, counted,
    Body.measured_of_ok measured, by rw [same], evolves.mono ?_, ?_⟩, rfl, rfl⟩
  · rintro purpose ⟨span, member, here, rfl⟩
    exact ⟨span, span_of_index success sourceAt result member here, rfl⟩
  · intro span member
    have registered : span ∈ prepared.spans := by
      refine (mem_prepareAll_spans success).mpr ⟨index, source, sourceAt, ?_⟩
      simpa [Chunk.preparedSpans, result, Except.toOption] using member
    have images : span.registered ∈ relaxed.spans.map Span.registered := by
      rw [frame.spans]
      exact List.mem_map_of_mem registered
    obtain ⟨final, finalMember, same⟩ := List.mem_map.mp images
    exact ⟨final, finalMember, same⟩

/-- A chunk of a layout has the slot that the relaxation gave it. -/
theorem origin_recorded (success : prepareAll table id 0 sect.chunks = .ok prepared)
    (clean : prepared.problems = []) (frame : Relaxation.Frame (prepared.relaxation id) relaxed)
    {index : Nat} {chunk : Chunk}
    (chunkAt : (sect.recorded prepared relaxed).sect.chunks[index]? = some chunk) :
    ∃ (origin : Origin table id index (sect.recorded prepared relaxed).sect chunk)
      (changed : Chunk),
      sect.chunks[index]? = some origin.source ∧
      origin.source.prepare table id index =
        (changed, .ok (origin.countSpan.toList ++ origin.measure.span.toList)) := by
  obtain ⟨before, slot, beforeAt, slotAt, rfl⟩ := Section.getElem?_recorded chunkAt
  rw [prepareAll_getElem? success, Option.map_eq_some_iff] at beforeAt
  obtain ⟨source, sourceAt, rfl⟩ := beforeAt
  obtain ⟨changed, spans, result⟩ := prepare_of_clean success clean sourceAt
  obtain ⟨origin, rfl, rfl⟩ := origin_of_prepare success frame sourceAt result slotAt
  rw [result]
  exact ⟨origin, changed, sourceAt, result⟩

variable (success : sect.layout table maxPasses id = .ok layout)
include success

/-- A chunk of a layout that has no error comes from the chunk that was there before, whatever other
chunks may have come to. -/
theorem exists_origin_of_sound {index : Nat} {chunk : Chunk}
    (chunkAt : layout.sect.chunks[index]? = some chunk) (sound : chunk.slot.error = none) :
    ∃ origin : Origin table id index layout.sect chunk,
      sect.chunks[index]? = some origin.source := by
  obtain ⟨prepared, prepares, rfl⟩ := layout_eq_ok_iff.mp success
  obtain ⟨before, slot, beforeAt, slotAt, rfl⟩ := Section.getElem?_recorded chunkAt
  have unproblematic : before.slot.error = none := by
    by_contra failed
    have startsFailed : (prepared.relaxation id).HasFailed index :=
      ⟨before.slot, by rw [Prepared.relaxation, List.getElem?_map, beforeAt, Option.map_some],
        failed⟩
    obtain ⟨last, lastAt, error⟩ := (Relaxation.hasFailed_preserved index).of_reaches
      (Relaxation.reaches_settle (prepared.relaxation id) maxPasses) startsFailed.assignOffsets
    rw [slotAt, Option.some.injEq] at lastAt
    exact error (lastAt ▸ sound)
  rw [prepareAll_getElem? prepares, Option.map_eq_some_iff] at beforeAt
  obtain ⟨source, sourceAt, rfl⟩ := beforeAt
  rw [Chunk.prepare_error] at unproblematic
  obtain ⟨changed, spans, result⟩ := prepare_of_unproblematic prepares sourceAt unproblematic
  obtain ⟨origin, rfl, rfl⟩ :=
    origin_of_prepare prepares (frame_settle prepared id maxPasses) sourceAt result slotAt
  rw [result]
  exact ⟨origin, sourceAt⟩

/-- A chunk of a layout without an error comes from the chunk that was there before. -/
theorem exists_origin (silent : layout.error = none) {index : Nat} {chunk : Chunk}
    (chunkAt : layout.sect.chunks[index]? = some chunk) :
    ∃ origin : Origin table id index layout.sect chunk,
      sect.chunks[index]? = some origin.source := by
  obtain ⟨prepared, prepares, rfl⟩ := layout_eq_ok_iff.mp success
  have clean := recorded_error_eq_none_iff.mp silent
  obtain ⟨origin, _, sourceAt, _⟩ := origin_recorded prepares (problems_of_settle clean)
    (frame_settle prepared id maxPasses) chunkAt
  exact ⟨origin, sourceAt⟩

/-- A layout marks its section exactly if it reports an error. -/
theorem error_eq_none_iff :
    layout.error = none ↔ layout.sect.failed = false := by
  obtain ⟨prepared, _, rfl⟩ := layout_eq_ok_iff.mp success
  rw [recorded_error_eq_none_iff, ← List.isEmpty_iff]
  simp [Section.recorded]

/-- A layout without an error leaves a clean section. -/
theorem clean_layout (silent : layout.error = none) :
    layout.sect.Clean table id := by
  obtain ⟨prepared, prepares, rfl⟩ := layout_eq_ok_iff.mp success
  have clean := recorded_error_eq_none_iff.mp silent
  obtain ⟨orderly, quiet, frame⟩ := settle_of_clean prepares clean
  have unproblematic := problems_of_settle clean
  generalize (prepared.relaxation id).settle maxPasses = relaxed at *
  have slots : (sect.recorded prepared relaxed).sect.slots = relaxed.slots :=
    slots_recorded (by rw [frame.length, Prepared.relaxation, List.length_map])
  have home : relaxed.home = id := frame.home
  have view : (sect.recorded prepared relaxed).sect.relaxed id =
      { home := relaxed.home
        slots := relaxed.slots
        spans := relaxed.spans
        size := relaxed.size } := by
    rw [Section.relaxed, slots, home]
    rfl
  refine ⟨?_, ?_, fun chunkAt => ?_, ?_⟩
  · rw [view]
    exact ⟨⟨orderly.coherent.watched, orderly.coherent.distinct⟩, fun _ => orderly.kept clean,
      fun _ => orderly.sound clean, fun _ => orderly.contiguous clean⟩
  · rw [view]
    exact Relaxation.collect_nil_iff.mp quiet
  · obtain ⟨origin, _⟩ := origin_recorded prepares unproblematic frame chunkAt
    exact ⟨origin⟩
  · intro span member
    obtain ⟨slot, slotAt, _⟩ := orderly.coherent.watched span member
    rw [← slots, Section.slots, List.getElem?_map, Option.map_eq_some_iff] at slotAt
    obtain ⟨chunk, chunkAt, _⟩ := slotAt
    obtain ⟨origin, _, sourceAt, result⟩ := origin_recorded prepares unproblematic frame chunkAt
    have images : span.registered ∈ (prepared.relaxation id).spans.map Span.registered :=
      frame.spans ▸ List.mem_map_of_mem member
    obtain ⟨original, originalMember, same⟩ := List.mem_map.mp images
    exact ⟨chunk, chunkAt, origin, original,
      span_of_index prepares sourceAt result originalMember (Span.agree_of_registered same).1, same⟩

end

end Assembler
