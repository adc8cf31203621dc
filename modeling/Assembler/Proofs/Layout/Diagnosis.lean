import Assembler.Proofs.Layout.Passes
import Assembler.Proofs.Relaxation.Account
import Assembler.Proofs.Relayout.Repetition
import Mathlib.Data.List.Perm.Basic

/-!
# What a layout reports

A layout reports each chunk that failed once, with the reason, and besides that at most once that it
did not converge. Whatever failed, the chunks stand one behind the other, and the section ends
behind the last (`layoutSection_diagnoses`).
-/

namespace Assembler

/-- A report says why a chunk, which has a number in its section, has failed. -/
inductive Diagnostic.Reports (sectionName : String) (index : Nat) (chunk : Chunk) :
    Diagnostic → Prop where
  /-- The error of the chunk, at its line. -/
  | failed {error : Error} (known : chunk.slot.error = some error)
      (other : Cause.nonMonotonic ∉ error.causes) :
      Reports sectionName index chunk { severity := .error, line := chunk.line, sectionName, error }
  /-- That the chunk shrank, as a broken promise of the assembler. -/
  | shrank {before after : UInt64} (known : chunk.slot.error = some .shrank)
      (less : after < before) :
      Reports sectionName index chunk
        { severity := .internal, sectionName, error := .shrankBy index before after }

/-- The chunks of a section stand one behind the other, with offsets that are words. -/
structure Section.Gapless (sect : Section) : Prop where
  first : ∀ chunk, sect.chunks[0]? = some chunk → chunk.slot.offset = 0
  next : ∀ index chunk following, sect.chunks[index]? = some chunk →
    sect.chunks[index + 1]? = some following →
    following.slot.offset =
      chunk.slot.offset + chunk.slot.length * chunk.slot.copies.toUInt64
  size : sect.size = sect.chunks.getLast?.elim 0 fun chunk =>
    chunk.slot.offset + chunk.slot.length * chunk.slot.copies.toUInt64

namespace Contiguous

variable {offset size : UInt64} {slots : List Slot}

/-- The slot behind another begins where that one ends. -/
theorem next_eq (contiguous : Contiguous offset slots size) {index : Nat} {slot following : Slot}
    (slotAt : slots[index]? = some slot) (followingAt : slots[index + 1]? = some following) :
    following.offset = slot.next := by
  have total : (slots.take (index + 1)).map Slot.total =
      (slots.take index).map Slot.total ++ [slot.total] := by
    rw [List.take_add_one, slotAt, Option.toList_some, List.map_append, List.map_singleton]
  rw [contiguous.offset_eq followingAt, Slot.next, contiguous.offset_eq slotAt, total,
    List.sum_append, List.sum_singleton, UInt64.add_assoc]

/-- The size of a section is where its last slot ends. -/
theorem size_eq_getLast (contiguous : Contiguous offset slots size) :
    size = slots.getLast?.elim offset Slot.next := by
  induction slots generalizing offset with
  | nil => exact contiguous
  | cons slot rest ih =>
    rw [ih contiguous.2.2, List.getLast?_cons]
    cases rest.getLast? <;> rfl

end Contiguous

/-- A section whose slots are contiguous is gapless. -/
theorem Section.gapless_of_contiguous {sect : Section}
    (contiguous : Contiguous 0 sect.slots sect.size) : sect.Gapless where
  first := by
    intro chunk chunkAt
    have slotAt : sect.slots[0]? = some chunk.slot := by
      rw [Section.slots, List.getElem?_map, chunkAt, Option.map_some]
    simpa using contiguous.offset_eq slotAt
  next := by
    intro index chunk following chunkAt followingAt
    exact contiguous.next_eq (by rw [Section.slots, List.getElem?_map, chunkAt, Option.map_some])
      (by rw [Section.slots, List.getElem?_map, followingAt, Option.map_some])
  size := by
    rw [contiguous.size_eq_getLast, Section.slots, List.getLast?_map, Option.elim_map]
    rfl

section

variable {table : SymbolTable} {id : Nat} {sect : Section} {prepared : Prepared}

/-- What fails while chunks are prepared is accounted for. -/
theorem accounted_relaxation (success : prepareAll table id 0 sect.chunks = .ok prepared) :
    (prepared.relaxation id).Accounted := by
  have slotAt : ∀ {index : Nat} {slot : Slot}, (prepared.relaxation id).slots[index]? = some slot ↔
      ∃ chunk, sect.chunks[index]? = some chunk ∧ (chunk.prepare table id index).1.slot = slot := by
    intro index slot
    rw [Prepared.relaxation, List.getElem?_map, prepareAll_getElem? success, Option.map_map,
      Option.map_eq_some_iff]
    rfl
  have reported : ∀ {problem : LayoutProblem}, problem ∈ (prepared.relaxation id).problems ↔
      ∃ index chunk error, sect.chunks[index]? = some chunk ∧
        (chunk.prepare table id index).1.slot.error = some error ∧
        problem = { index := some index, error } := by
    intro problem
    rw [Prepared.relaxation, (prepareAll_eq success).2.2, List.mem_filterMap]
    constructor
    · rintro ⟨⟨chunk, index⟩, member, found⟩
      obtain ⟨error, failed, rfl⟩ := Option.map_eq_some_iff.mp found
      exact ⟨index, chunk, error, List.mem_zipIdx_iff_getElem?.mp member,
        (Chunk.prepare_error ..).trans failed, rfl⟩
    · rintro ⟨index, chunk, error, chunkAt, failed, rfl⟩
      rw [Chunk.prepare_error] at failed
      exact ⟨(chunk, index), List.mem_zipIdx_iff_getElem?.mpr chunkAt, by simp [failed]⟩
  refine ⟨?_, ?_, ?_, ?_⟩
  · rw [Prepared.relaxation, (prepareAll_eq success).2.2]
    refine LayoutProblem.nodup_about_filterMap ?_
    rintro ⟨chunk, index⟩ problem found
    obtain ⟨error, _, rfl⟩ := Option.map_eq_some_iff.mp found
    rfl
  · intro problem member index isAbout
    obtain ⟨place, chunk, error, chunkAt, failed, rfl⟩ := reported.mp member
    rw [LayoutProblem.about_named, Option.some.injEq] at isAbout
    subst isAbout
    refine ⟨_, slotAt.mpr ⟨chunk, chunkAt, rfl⟩, .named failed fun blamed => ?_⟩
    rw [Chunk.prepare_error] at failed
    exact absurd (preparationProblem_causes failed blamed) (by decide)
  · rintro index ⟨slot, found, failed⟩
    obtain ⟨chunk, chunkAt, rfl⟩ := slotAt.mp found
    obtain ⟨error, known⟩ := Option.ne_none_iff_exists'.mp failed
    exact ⟨_, reported.mpr ⟨index, chunk, error, chunkAt, known, rfl⟩, rfl⟩
  · intro problem member unnamed
    obtain ⟨_, _, _, _, _, rfl⟩ := reported.mp member
    cases unnamed

/-- The chunks that have failed, with their numbers. -/
def Section.failedChunks (sect : Section) : List (Chunk × Nat) :=
  sect.chunks.zipIdx.filter fun entry => entry.1.slot.error.isSome

/-- The failed chunks of a section are those with an error. -/
theorem Section.mem_failedChunks {chunk : Chunk} {index : Nat} :
    (chunk, index) ∈ sect.failedChunks ↔
      sect.chunks[index]? = some chunk ∧ chunk.slot.error ≠ none := by
  rw [failedChunks, List.mem_filter, List.mem_zipIdx_iff_getElem?, Option.isSome_iff_ne_none]

/-- Problems that are about chunks, by these chunks. -/
theorem LayoutProblem.forall₂_about (problems : List LayoutProblem) :
    List.Forall₂ (fun index problem => problem.about = some index) (problems.filterMap about)
      (problems.filter fun problem => problem.about.isSome) := by
  induction problems with
  | nil => exact .nil
  | cons problem rest ih =>
    cases isAbout : problem.about with
    | none => simpa [isAbout] using ih
    | some index => simpa [isAbout] using ih

section

variable {relaxed : Relaxation} (accounted : relaxed.Accounted)
  (slots : sect.slots = relaxed.slots)
include accounted slots

/-- Where failures are accounted for, the chunks that failed are those that the problems are
about. -/
theorem failedChunks_perm :
    (sect.failedChunks.map Prod.snd).Perm (relaxed.problems.filterMap LayoutProblem.about) := by
  have distinct : (sect.failedChunks.map Prod.snd).Nodup := by
    have places : (sect.chunks.zipIdx.map Prod.snd).Nodup := by
      rw [List.zipIdx_map_snd]
      exact List.nodup_range'
    exact places.sublist (List.filter_sublist.map _)
  rw [List.perm_ext_iff_of_nodup distinct accounted.distinct]
  intro index
  rw [List.mem_map, List.mem_filterMap]
  constructor
  · rintro ⟨⟨chunk, index⟩, member, rfl⟩
    obtain ⟨chunkAt, failed⟩ := Section.mem_failedChunks.mp member
    refine accounted.reported index ⟨chunk.slot, ?_, failed⟩
    rw [← slots, Section.slots, List.getElem?_map, chunkAt, Option.map_some]
  · rintro ⟨problem, member, isAbout⟩
    obtain ⟨slot, slotAt, failed⟩ := accounted.hasFailed member isAbout
    rw [← slots, Section.slots, List.getElem?_map, Option.map_eq_some_iff] at slotAt
    obtain ⟨chunk, chunkAt, rfl⟩ := slotAt
    exact ⟨(chunk, index), Section.mem_failedChunks.mpr ⟨chunkAt, failed⟩, rfl⟩

/-- A problem that is about a chunk is reported as the reason why the chunk failed. -/
theorem reports_of_about {problem : LayoutProblem} (member : problem ∈ relaxed.problems)
    {index : Nat} (isAbout : problem.about = some index) {chunk : Chunk}
    (chunkAt : sect.chunks[index]? = some chunk) :
    (sect.reportProblem problem).Reports sect.name index chunk := by
  obtain ⟨slot, slotAt, explains⟩ := accounted.explained problem member index isAbout
  rw [← slots, Section.slots, List.getElem?_map, chunkAt, Option.map_some,
    Option.some.injEq] at slotAt
  subst slotAt
  cases explains with
  | named known other =>
    rw [LayoutProblem.about_named, Option.some.injEq] at isAbout
    subst isAbout
    simp only [Section.reportProblem, chunkAt, Option.map_some, Option.getD_some]
    exact .failed known other
  | shrank known less =>
    cases isAbout
    exact .shrank known less

/-- Where failures are accounted for, every chunk that failed has one report. -/
theorem exists_reports :
    ∃ entries, List.Forall₂ (fun entry diagnostic =>
        Diagnostic.Reports sect.name entry.2 entry.1 diagnostic) sect.failedChunks entries ∧
      (relaxed.problems.map sect.reportProblem).Perm
        (entries ++ (relaxed.problems.filter fun problem => problem.about.isNone).map
          sect.reportProblem) := by
  obtain ⟨sorted, paired, among⟩ := List.perm_comp_forall₂ (failedChunks_perm accounted slots)
    (LayoutProblem.forall₂_about relaxed.problems)
  refine ⟨sorted.map sect.reportProblem, ?_, ?_⟩
  · rw [List.forall₂_map_left_iff] at paired
    rw [List.forall₂_map_right_iff, List.forall₂_iff_zip]
    refine ⟨paired.length_eq, ?_⟩
    rintro ⟨chunk, index⟩ problem zipped
    obtain ⟨entryMember, problemMember⟩ := List.of_mem_zip zipped
    obtain ⟨chunkAt, _⟩ := Section.mem_failedChunks.mp entryMember
    exact reports_of_about accounted slots
      (List.mem_of_mem_filter (among.mem_iff.mp problemMember))
      ((List.forall₂_iff_zip.mp paired).2 zipped) chunkAt
  · rw [← List.map_append]
    refine List.Perm.map _ ?_
    have divided := List.filter_append_perm (fun problem : LayoutProblem => problem.about.isSome)
      relaxed.problems
    simp only [Option.not_isSome] at divided
    exact divided.symm.trans (among.symm.append_right _)

end

/-- A relaxation has at most one problem that is about no chunk: that its budget was exceeded. -/
theorem Relaxation.Settled.general {start last : Relaxation} {budget : Nat} {converged : Bool}
    (settled : Settled start last budget converged) (accounted : last.Accounted) :
    let general := last.problems.filter fun problem => problem.about.isNone
    general.length ≤ 1 ∧ ∀ problem ∈ general, ∃ growths pending,
      problem = { index := none, error := .budgetSpent growths pending } := by
  intro general
  have blamed : ∀ {problem : LayoutProblem}, problem ∈ last.problems →
      problem.about.isNone = true → Cause.noConvergence ∈ problem.error.causes :=
    fun member unnamed => accounted.general _ member (Option.isNone_iff_eq_none.mp unnamed)
  cases converged with
  | true =>
    have nothing : general = [] := by
      rw [List.filter_eq_nil_iff]
      intro problem member unnamed
      exact settled.convergent rfl problem member (blamed member unnamed)
    simp [nothing]
  | false =>
    obtain ⟨_, others, pending, convergent, problems⟩ := settled.stopped rfl
    have quiet : (others.filter fun problem => problem.about.isNone) = [] := by
      rw [List.filter_eq_nil_iff]
      intro problem member unnamed
      refine convergent problem member (blamed ?_ unnamed)
      rw [problems]
      exact List.mem_append_left _ member
    have alone : general = [{ index := none, error := .budgetSpent last.expansions pending }] := by
      simp only [general]
      rw [problems, List.filter_append, quiet, List.nil_append]
      rfl
    rw [alone]
    exact ⟨Nat.le_refl 1, fun problem member =>
      ⟨last.expansions, pending, List.mem_singleton.mp member⟩⟩

end

/-- The reports of a layout are one for each chunk that failed and at most one that it did not
converge, and none is a warning. The section is marked as failed exactly if there is a report, and
exactly if the layout has an error. No span of a chunk that failed is watched any more, and the
chunks stand one behind the other, whatever failed. -/
theorem layoutSection_diagnoses {object laid : Object} {id : Nat} {layout : Layout}
    (success : object.layoutSection id = .ok (laid, layout)) :
    laid.sections[id]? = some layout.sect ∧
      laid.diagnostics = object.diagnostics ++ layout.diagnostics ∧
      (∃ entries stops, layout.diagnostics.Perm (entries ++ stops) ∧
        List.Forall₂ (fun entry diagnostic =>
            Diagnostic.Reports layout.sect.name entry.2 entry.1 diagnostic)
          layout.sect.failedChunks entries ∧
        stops.length ≤ 1 ∧
        ∀ diagnostic ∈ stops, ∃ growths pending, diagnostic =
          { severity := .internal
            sectionName := layout.sect.name
            error := .budgetSpent growths pending }) ∧
      (∀ diagnostic ∈ layout.diagnostics, diagnostic.severity ≠ .warning) ∧
      (layout.sect.failed = true ↔ layout.diagnostics ≠ []) ∧
      (layout.sect.failed = true ↔ layout.error ≠ none) ∧
      (∀ span ∈ layout.sect.spans, ∀ chunk, layout.sect.chunks[span.index]? = some chunk →
        chunk.slot.error ≠ none → span.state ≠ .active) ∧
      layout.sect.Gapless := by
  obtain ⟨sect, found, lays, recorded, _⟩ := layoutSection_ok success
  have marks := error_eq_none_iff lays
  obtain ⟨prepared, prepares, rfl⟩ := layout_eq_ok_iff.mp lays
  have appended : laid.diagnostics = object.diagnostics ++
      (sect.recorded prepared ((prepared.relaxation id).settle object.maxPasses)).diagnostics := by
    rw [layoutSection_eq found, lays] at success
    cases success
    rfl
  have accounted := Relaxation.accounted_settle (accounted_relaxation prepares) rfl rfl
    object.maxPasses
  have coherent : ((prepared.relaxation id).settle object.maxPasses).Coherent :=
    Relaxation.coherent_preserved.of_reaches (Relaxation.reaches_settle _ _)
      (coherent_relaxation prepares).assignOffsets
  have contiguous := Relaxation.contiguous_settle (coherent_relaxation prepares) object.maxPasses
  obtain ⟨converged, settled⟩ := exists_settled prepares object.maxPasses
  have length := length_settle prepared id object.maxPasses
  generalize (prepared.relaxation id).settle object.maxPasses = relaxed at *
  have slots : (sect.recorded prepared relaxed).sect.slots = relaxed.slots := slots_recorded length
  have reports : (sect.recorded prepared relaxed).diagnostics =
      relaxed.problems.map (sect.recorded prepared relaxed).sect.reportProblem := by
    rw [reportProblem_recorded prepares length]
    rfl
  obtain ⟨entries, paired, among⟩ := exists_reports accounted slots
  obtain ⟨few, general⟩ := settled.general accounted
  refine ⟨recorded, appended, ⟨entries, _, reports ▸ among, paired, ?_, ?_⟩, ?_, ?_, ?_, ?_, ?_⟩
  · rwa [List.length_map]
  · intro diagnostic member
    obtain ⟨problem, problemMember, rfl⟩ := List.mem_map.mp member
    obtain ⟨growths, pending, rfl⟩ := general problem problemMember
    exact ⟨growths, pending, rfl⟩
  · intro diagnostic member
    obtain ⟨problem, _, rfl⟩ := List.mem_map.mp member
    unfold Section.reportProblem
    split <;> simp [Severity.error, Severity.internal, Severity.warning]
  · simp [Section.recorded]
  · rw [Ne, marks, Bool.not_eq_false]
  · intro span member chunk chunkAt failed active
    obtain ⟨slot, slotAt, _, sound, _⟩ := coherent.watched span member
    rw [← slots, Section.slots, List.getElem?_map, chunkAt, Option.map_some,
      Option.some.injEq] at slotAt
    exact failed (slotAt ▸ sound active)
  · exact Section.gapless_of_contiguous (slots ▸ contiguous)

/-- A jump over counted bytes whose number is the length of the jump and almost as many as words can
count, more bytes for those by which the jump is longer than two, an origin that cannot be reached
and a negative count; the budget is two growths. -/
def manyFailures : Object where
  maxPasses := 6148914691236517206
  sections :=
    [{ name := ".text"
       chunks :=
        [{ body := .branch (Machine.jmp (.ofLocation ⟨0, 2, 0⟩))
           line := 1 },
          { body := .data [.bytes [1, 2, 3, 4]]
            repeats := some { constant := 4611686018427387901
                              terms := [⟨-1, .place ⟨0, 0, 0⟩⟩, ⟨1, .place ⟨0, 1, 0⟩⟩] }
            line := 2 },
          { body := .data [.bytes [0x90]]
            repeats := some { constant := -2
                              terms := [⟨-1, .place ⟨0, 0, 0⟩⟩, ⟨1, .place ⟨0, 1, 0⟩⟩] }
            line := 3 },
          { body := .org { start := .ofInt 1 }, line := 4 },
          { body := .data [.bytes [0x90]], repeats := some (.ofInt (-1)), line := 5 }] }]

/-- The counted bytes shrink as the jump grows, which breaks a promise; the origin and the negative
count fail by themselves, and the third growth exceeds the budget. -/
theorem manyFailures_diagnosed :
    ∃ laid layout, manyFailures.layoutSection 0 = .ok (laid, layout) ∧
      laid.diagnostics.map (fun diagnostic => (diagnostic.line, diagnostic.error)) =
        [(5, .negativeRepeat (-1)), (4, .originOverlap 2 1),
          (0, .shrankBy 1 18446744073709551612 8), (0, .budgetSpent 3 0)] ∧
      layout.sect.failedChunks.map Prod.snd = [1, 3, 4] ∧
      (∃ entries stops, layout.diagnostics.Perm (entries ++ stops) ∧ entries.length = 3 ∧
        stops.length ≤ 1) ∧
      layout.sect.failed = true ∧ layout.sect.Gapless := by
  obtain ⟨⟨laid, layout⟩, success, reports, numbers⟩ := exists_ok_of_any
    (p := fun result =>
      result.1.diagnostics.map (fun diagnostic => (diagnostic.line, diagnostic.error)) =
        [(5, .negativeRepeat (-1)), (4, .originOverlap 2 1),
          (0, .shrankBy 1 18446744073709551612 8), (0, .budgetSpent 3 0)] ∧
      result.2.sect.failedChunks.map Prod.snd = [1, 3, 4])
    (manyFailures.layoutSection 0) (by decide +kernel)
  obtain ⟨_, appended, ⟨entries, stops, among, paired, few, _⟩, _, failed, _, _, gapless⟩ :=
    layoutSection_diagnoses success
  refine ⟨laid, layout, success, reports, numbers, ⟨entries, stops, among, ?_, few⟩, ?_, gapless⟩
  · rw [← paired.length_eq, ← List.length_map, numbers]
    rfl
  · rw [failed]
    rintro none
    rw [appended, none] at reports
    cases reports

end Assembler
