import Assembler.Proofs.Layout.Passes
import Assembler.Proofs.Layout.Sections
import Assembler.Proofs.Relaxation.Pace

/-!
# Layouts that converge

If every repeat count is a constant, no span watches a number of copies and every span keeps the
pace of `Span.Paced` (`paced_relaxation`): the section grows at most nine times for each span. The
budget that is chosen when no limit on passes is given allows 64 growths for each span, so the
layout converges (`constant_counts_converge`). The budget is a product in a signed word, which holds
it as long as there are fewer than 2 ^ 31 spans. One span more leaves no budget at all
(`exodus_unsettled`).
-/

namespace Assembler

/-- A repeat count, if there is one, that is a constant once symbols are expanded. -/
def Chunk.CountConstant (chunk : Chunk) (table : SymbolTable) : Prop :=
  ∀ count ∈ chunk.repeats, ∀ expanded ∈ (table.expand count).toOption, expanded.isConstant = true
deriving Decidable

/-- The span that a body registers keeps its pace from the start: an integer has one byte, and
neither it nor a branch has grown. -/
theorem Body.Measured.span_paced {body : Body} {table : SymbolTable} {index : Nat}
    {counted : Bool} {copies : Int64} {measure : Measure} {span : Span}
    (measured : body.Measured table index counted copies measure)
    (registered : measure.span = some span) {slot : Slot} (length : slot.length = measure.length) :
    span.Paced 0 slot := by
  cases measured with
  | deferred =>
    simp only [Option.some.injEq] at registered
    subst registered
    simp [Span.Paced, length]
  | branch chosen =>
    obtain ⟨_, _, _, _, ⟨_, _, none⟩ | ⟨_, _, _, ⟨_, none⟩ | ⟨_, _, watched⟩⟩⟩ :=
      Branch.measure_ok chosen
    · rw [none] at registered
      cases registered
    · rw [none] at registered
      cases registered
    · rw [watched, Option.some.injEq] at registered
      subst registered
      simp [Span.Paced]
  | data | constant | reserve | binary | align | org | instruction => cases registered

/-- A chunk with a constant repeat count registers the span of its body only. -/
theorem Chunk.CountConstant.span_paced {chunk changed : Chunk} {table : SymbolTable}
    {id index : Nat} {spans : List Span} (constant : chunk.CountConstant table)
    (success : chunk.prepare table id index = (changed, .ok spans)) {span : Span}
    (member : span ∈ spans) : span.Paced 0 changed.slot := by
  obtain ⟨body, copies, countSpan, measure, -, counted, measured, rfl, rfl⟩ := prepare_ok success
  rcases List.mem_append.mp member with count | form
  · obtain rfl := Option.mem_toList.mp count
    rcases initialCopies_ok counted with
      ⟨_, _, absent⟩ | ⟨times, expanded, given, _, expands, found⟩
    · cases absent
    · rcases found with ⟨_, _, _, _, absent⟩ | ⟨varying, _⟩
      · cases absent
      · have known := constant times given expanded (by rw [expands]; rfl)
        rw [known] at varying
        cases varying
  · exact (Body.measured_of_ok measured).span_paced (Option.mem_toList.mp form) rfl

section

variable {table : SymbolTable} {id : Nat} {chunks : List Chunk} {prepared : Prepared}

variable (success : prepareAll table id 0 chunks = .ok prepared)
  (constant : ∀ chunk ∈ chunks, chunk.CountConstant table)
include success constant

/-- At the start of a relaxation without watched repeat counts, every span keeps its pace. -/
theorem paced_relaxation :
    (prepared.relaxation id).Paced where
  counted := rfl
  keyed := by
    intro growth member
    cases member
  spans := by
    intro span member
    obtain ⟨index, chunk, chunkAt, registered⟩ := (mem_prepareAll_spans success).mp member
    obtain ⟨changed, spans, result, spanMember⟩ := Chunk.prepare_of_mem_preparedSpans registered
    have here : span.index = index := (span_of_prepare result id spanMember).1
    have changedAt : prepared.chunks[span.index]? = some changed := by
      rw [prepareAll_getElem? success, here, chunkAt, Option.map_some, result]
    refine ⟨changed.slot, ?_,
      (constant chunk (List.mem_of_getElem? chunkAt)).span_paced result spanMember⟩
    rw [Prepared.relaxation, List.getElem?_map, changedAt, Option.map_some]

/-- Settling a prepared section keeps the pace. -/
theorem paced_settle (maxPasses : Int) :
    ((prepared.relaxation id).settle maxPasses).Paced := by
  have coherent := coherent_relaxation success
  exact (Relaxation.paced_preserved.of_reaches (Relaxation.reaches_settle _ maxPasses)
    ⟨coherent.assignOffsets, (paced_relaxation success constant).assignOffsets coherent⟩).2

end

/-- The budget that is chosen without a limit allows nine growths for each span, as long as a signed
word holds it. -/
theorem nine_le_growthBudget {spans : Nat} (few : spans < 2 ^ 31) {maxPasses : Int}
    (unset : maxPasses ≤ 0) :
    spans * 9 ≤ Relaxation.growthBudget (Relaxation.passLimit maxPasses spans) spans := by
  have limit : Relaxation.passLimit maxPasses spans = max 64 (2 * spans + 2) :=
    if_neg (Int.not_lt.mpr unset)
  have held : max 64 (2 * spans + 2) * max 1 spans < 2 ^ 63 :=
    calc max 64 (2 * spans + 2) * max 1 spans
        ≤ 2 ^ 32 * (2 ^ 31 - 1) := Nat.mul_le_mul (by omega) (by omega)
      _ < 2 ^ 63 := by decide
  rw [limit, Relaxation.growthBudget_eq held]
  calc spans * 9 ≤ max 1 spans * max 64 (2 * spans + 2) := Nat.mul_le_mul (by omega) (by omega)
    _ = max 64 (2 * spans + 2) * max 1 spans := Nat.mul_comm ..

/-- Without a limit on passes, a section whose repeat counts are all constant is laid out, every
growth is made for a span, and no span makes its chunk grow more than nine times. It is reported not
to converge exactly if it grows beyond the budget as a signed word has it, and so never with fewer
than 2 ^ 31 spans. -/
theorem constant_counts_converge {object : Object} {id : Nat} {sect : Section}
    {prepared : Prepared} (found : object.sections[id]? = some sect)
    (resolved : prepareAll object.table id 0 sect.chunks = .ok prepared)
    (constant : ∀ chunk ∈ sect.chunks, chunk.CountConstant object.table)
    (unset : object.maxPasses ≤ 0) :
    ∃ laid layout, object.layoutSection id = .ok (laid, layout) ∧
      ((∃ diagnostic ∈ layout.diagnostics, Cause.noConvergence ∈ diagnostic.error.causes) ↔
        Relaxation.growthBudget (Relaxation.passLimit object.maxPasses layout.sect.stats.spans)
          layout.sect.stats.spans < layout.sect.stats.expansions) ∧
      (layout.sect.stats.spans < 2 ^ 31 → ∀ diagnostic ∈ layout.diagnostics,
        Cause.noConvergence ∉ diagnostic.error.causes) ∧
      (∀ growth ∈ layout.growths, ∃ span ∈ layout.sect.spans, growth.isFor span = true) ∧
      (∀ span ∈ layout.sect.spans, span.growthsAmong layout.growths ≤ 9) ∧
      layout.growths.length = layout.sect.stats.expansions ∧
      layout.sect.stats.expansions ≤ layout.sect.stats.spans * 9 := by
  have laidOut : sect.layout object.table object.maxPasses id = .ok (sect.recorded prepared
      ((prepared.relaxation id).settle object.maxPasses)) :=
    layout_eq_ok_iff.mpr ⟨prepared, resolved, rfl⟩
  have paced := paced_settle resolved constant object.maxPasses
  have frame := frame_settle prepared id object.maxPasses
  have spans : ((prepared.relaxation id).settle object.maxPasses).spans.length =
      prepared.spans.length := by
    have lengths := congrArg List.length frame.spans
    rwa [List.length_map, List.length_map] at lengths
  have bounded : ((prepared.relaxation id).settle object.maxPasses).expansions ≤
      prepared.spans.length * 9 := spans ▸ paced.expansions_le
  have outcome := layoutSection_eq found
  rw [laidOut] at outcome
  obtain ⟨converged, settled⟩ := exists_settled resolved object.maxPasses
  have reported := (settled.reported_iff sect prepared).symm.trans settled.exceeded_iff.symm
  refine ⟨_, _, outcome, reported, ?_, fun growth => paced.exists_isFor,
    fun span => paced.growthsAmong_le, paced.counted, bounded⟩
  intro few diagnostic member blamed
  have exceeded := reported.mp ⟨diagnostic, member, blamed⟩
  exact absurd (exceeded.trans_le bounded) (Nat.not_lt.mpr (nine_le_growthBudget few unset))

/-- Two integers that spell the distance over both of them, one of them twice, a jump back over
them, and padding behind it. -/
def entangled : Section where
  name := ".text"
  chunks :=
    [{ body := .leb128
        { number := { terms := [⟨-1, .place ⟨0, 0, 0⟩⟩, ⟨1, .place ⟨0, 3, 0⟩⟩] }
          signed := false } },
      { body := .leb128
          { number := { terms := [⟨-1, .place ⟨0, 0, 0⟩⟩, ⟨1, .place ⟨0, 3, 0⟩⟩] }
            signed := true }
        repeats := some (.ofInt 2) },
      { body := .reserve (.ofInt 125) 1 },
      { body := .branch (Machine.jmp (.ofLocation ⟨0, 0, 0⟩)) },
      { body := .align { boundary := .ofInt 16 } },
      { body := .org { start := .ofInt 256 } }]

/-- The integers come to two bytes each and the jump to its near form, and then nothing fires. -/
theorem entangled_converge :
    ∃ laid layout, Object.layoutSection { sections := [entangled] } 0 = .ok (laid, layout) ∧
      (layout.sect.stats.spans < 2 ^ 31 → ∀ diagnostic ∈ layout.diagnostics,
        Cause.noConvergence ∉ diagnostic.error.causes) ∧
      layout.sect.stats.expansions ≤ layout.sect.stats.spans * 9 ∧
      (entangled.layout {} 0 0).toOption.map (fun layout =>
        (layout.sect.stats.spans, layout.sect.stats.expansions, layout.error.isNone)) =
          some (3, 3, true) := by
  obtain ⟨prepared, resolved, -⟩ := exists_ok_of_any (p := fun _ => True)
    (prepareAll {} 0 0 entangled.chunks) (by decide +kernel)
  have found : ({ sections := [entangled] } : Object).sections[0]? = some entangled := rfl
  obtain ⟨laid, layout, outcome, -, blameless, -, -, -, bounded⟩ :=
    constant_counts_converge found resolved (by decide +kernel) (by decide)
  exact ⟨laid, layout, outcome, blameless, bounded, by decide +kernel⟩

/-- Without a budget, the first growth stops a relaxation. -/
theorem Relaxation.settle_unbudgeted {state next : Relaxation} {maxPasses : Int} {place : Nat}
    {rest : List Nat} (nothing : state.budgetFor maxPasses = 0)
    (queue : state.assignOffsets.collect [] = place :: rest)
    (grows : state.assignOffsets.beginPass.process place = (next, true)) :
    state.settle maxPasses = next.breakOff (.budgetSpent next.expansions rest.length) := by
  obtain ⟨remaining, limit⟩ :=
    Nat.exists_eq_add_one.mpr (passLimit_pos maxPasses state.spans.length)
  have passes : runPasses (passLimit maxPasses state.spans.length)
      (passLimit maxPasses state.spans.length) 0 state.assignOffsets =
        (next.breakOff (.budgetSpent next.expansions rest.length), false) := by
    rw [limit, runPasses_succ (by simp [queue]), queue, drain, firstGrowth, grows]
  exact settle_eq (nothing ▸ passes)

/-- A jump to another section, which always needs the near form. -/
def outwardJump : Branch := Machine.jmp (.ofLocation ⟨1, 0, 0⟩)

/-- The span that such a jump registers. -/
def outwardSpan (index : Nat) : Span where
  index := index
  purpose := .branch 5
  field :=
    { expr := .ofLocation ⟨1, 0, 0⟩
      origin := some ⟨0, index, 0⟩
      width := 32
      signed := true
      jump := true
      settled := true }
  low := -126
  high := 129

/-- Preparing a jump to another section registers one span. -/
theorem prepare_outwardJump (index : Nat) :
    ∃ changed, ({ body := .branch outwardJump } : Chunk).prepare {} 0 index =
      (changed, .ok [outwardSpan index]) ∧ changed.slot = { length := 2 } := by
  have expands : ({} : SymbolTable).expand outwardJump.target.expr =
      .ok outwardJump.target.expr := by decide +kernel
  have settles : outwardJump.settle {} 0 index =
      ({ outwardJump with target := (outwardSpan index).field }, none) := by
    rw [Branch.settle, Field.settle, expands]
    rfl
  refine ⟨{ body := .branch { outwardJump with target := (outwardSpan index).field }
            slot := { length := 2 } }, ?_, rfl⟩
  simp only [Chunk.prepare, Body.settle, settles]
  with_unfolding_all rfl

/-- A section of such jumps. -/
def outwardJumps (count : Nat) : Section where
  name := ".text"
  chunks := List.replicate count { body := .branch outwardJump }

/-- Many such jumps register one span each. -/
theorem exists_prepareAll_outwardJumps (count start : Nat) :
    ∃ prepared, prepareAll {} 0 start (outwardJumps count).chunks = .ok prepared ∧
      prepared.spans = (List.range' start count).map outwardSpan ∧
      prepared.chunks.map Chunk.slot = List.replicate count { length := 2 } := by
  induction count generalizing start with
  | zero => exact ⟨{}, rfl, rfl, rfl⟩
  | succ count ih =>
    obtain ⟨others, resolved, spans, slots⟩ := ih (start + 1)
    rw [outwardJumps] at resolved
    obtain ⟨changed, prepares, slot⟩ := prepare_outwardJump start
    refine ⟨{ others with
      chunks := changed :: others.chunks
      spans := [outwardSpan start] ++ others.spans }, ?_, ?_, ?_⟩
    · simp only [outwardJumps, List.replicate_succ, prepareAll, prepares, resolved, bind,
        Except.bind, pure, Except.pure]
    · simp [spans, List.range'_succ]
    · simp [slots, slot, List.replicate_succ]

/-- The first of several such jumps is the first to grow. -/
theorem outwardJump_grows (slots : List Slot) (spans : List Span) (problems : List LayoutProblem) :
    let state : Relaxation :=
      { home := 0, slots := { length := 2 } :: slots, spans := outwardSpan 0 :: spans, problems }
    ∃ rest next, state.assignOffsets.collect [] = 0 :: rest ∧
      state.assignOffsets.beginPass.process 0 = (next, true) :=
  ⟨_, _, rfl, rfl⟩

/-- Jumps to another section do not converge if their budget is nothing. -/
theorem exists_layout_outwardJumps {count : Nat}
    (nothing : Relaxation.growthBudget (Relaxation.passLimit 0 (count + 1)) (count + 1) = 0) :
    ∃ layout, (outwardJumps (count + 1)).layout {} 0 0 = .ok layout ∧
      layout.sect.stats.spans = count + 1 ∧
      ∃ diagnostic ∈ layout.diagnostics, Cause.noConvergence ∈ diagnostic.error.causes := by
  obtain ⟨prepared, resolved, spans, slots⟩ := exists_prepareAll_outwardJumps (count + 1) 0
  obtain ⟨rest, next, queue, grows⟩ := outwardJump_grows (List.replicate count { length := 2 })
    ((List.range' 1 count).map outwardSpan) prepared.problems
  have start : prepared.relaxation 0 =
      { home := 0
        slots := { length := 2 } :: List.replicate count { length := 2 }
        spans := outwardSpan 0 :: (List.range' 1 count).map outwardSpan
        problems := prepared.problems } := by
    rw [Prepared.relaxation, slots, spans, List.replicate_succ, List.range'_succ, List.map_cons]
  have length : prepared.spans.length = count + 1 := by simp [spans]
  rw [← start] at queue grows
  have stopped := Relaxation.settle_unbudgeted (length ▸ nothing) queue grows
  refine ⟨_, layout_eq_ok_iff.mpr ⟨prepared, resolved, rfl⟩, length, _,
    List.mem_map_of_mem (by rw [stopped]; exact List.mem_concat_self), ?_⟩
  simp [Error.causes]

/-- So many jumps to another section that a signed word does not hold their budget. -/
def exodus : Object where
  sections := [outwardJumps (2 ^ 31), { name := ".data" }]

/-- Without a limit on passes the budget for 2 ^ 31 spans wraps around to less than nothing, and the
first jump to grow is one too many. -/
theorem exodus_unsettled :
    exodus.maxPasses = 0 ∧
      (∀ sect ∈ exodus.sections, ∀ chunk ∈ sect.chunks, chunk.CountConstant exodus.table) ∧
      ∃ laid layout, exodus.layoutSection 0 = .ok (laid, layout) ∧
        layout.sect.stats.spans = 2 ^ 31 ∧
        ∃ diagnostic ∈ layout.diagnostics, Cause.noConvergence ∈ diagnostic.error.causes := by
  obtain ⟨count, enough⟩ : ∃ count, 2 ^ 31 = count + 1 := ⟨2 ^ 31 - 1, by decide⟩
  have nothing : Relaxation.growthBudget (Relaxation.passLimit 0 (2 ^ 31)) (2 ^ 31) = 0 := by decide
  refine ⟨rfl, ?_, ?_⟩
  · intro sect member chunk among
    rcases List.mem_cons.mp member with rfl | other
    · rw [(List.mem_replicate.mp among).2]
      decide
    · rw [List.mem_singleton.mp other] at among
      cases among
  · have outcome : exodus.layoutSection 0 = _ := layoutSection_eq rfl
    obtain ⟨layout, lays, spans, reported⟩ := exists_layout_outwardJumps (enough ▸ nothing)
    rw [← enough] at lays spans
    rw [show exodus.table = {} from rfl, show exodus.maxPasses = 0 from rfl, lays] at outcome
    exact ⟨_, layout, outcome, spans, reported⟩

end Assembler
