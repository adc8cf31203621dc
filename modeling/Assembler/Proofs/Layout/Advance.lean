import Assembler.Machine.Encoding
import Assembler.Proofs.Layout.Blame
import Assembler.Proofs.Layout.Clean
import Assembler.Proofs.Relaxation.Advance

/-!
# Layouts only advance

Where no near form of a branch is shorter than its short form, a layout moves no chunk back from one
assignment of offsets to the next, also when chunks fail on the way (`layout_offsets_advance`). So
an origin that could not be reached once lies before its chunk in the end, too.
-/

namespace Assembler

/-- The rule of an alignment has a positive boundary. -/
theorem Align.setter_proper {padding : Align} {table : SymbolTable} {setter : Setter}
    (rule : padding.setter table = .ok setter) : setter.Proper := by
  obtain ⟨boundary, maxSkip, _, _, positive, _, rfl⟩ := Align.setter_ok rule
  change 0 < boundary.toUInt64.toNat
  rw [toNat_toUInt64 positive.le]
  exact Int.pos_iff_toNat_pos.mp positive

/-- The rule of padding is proper, and only padding has one. -/
theorem Body.Measured.setter_proper {body : Body} {table : SymbolTable} {index : Nat}
    {counted : Bool} {copies : Int64} {measure : Measure}
    (measured : body.Measured table index counted copies measure) {setter : Setter}
    (rule : measure.setter = some setter) :
    setter.Proper ∧ body.kind.role = .offsetSetter := by
  cases measured with
  | align found =>
    rw [Option.some.injEq] at rule
    exact ⟨rule ▸ Align.setter_proper found, rfl⟩
  | org found =>
    rw [Option.some.injEq] at rule
    exact ⟨rule ▸ trivial, rfl⟩
  | branch chosen =>
    rw [(Branch.measure_ok chosen).2.2.2.1] at rule
    cases rule
  | data | constant | deferred | reserve | binary | instruction => cases rule

/-- A number of copies is not negative, and padding stands once. -/
theorem initialCopies_proper {chunk : Chunk} {table : SymbolTable} {sectionId index : Nat}
    {copies : Int64} {span : Option Span}
    (counted : chunk.initialCopies table sectionId index = .ok (copies, span)) :
    0 ≤ copies.toInt ∧ (chunk.kind.role = .offsetSetter → copies = 1) := by
  rcases initialCopies_ok counted with ⟨_, rfl, _⟩ | ⟨count, expanded, _, unset, _, found⟩
  · exact ⟨by decide, fun _ => rfl⟩
  · refine ⟨?_, fun setter => absurd setter unset⟩
    rcases found with ⟨_, word, positive, rfl, _⟩ | ⟨_, _, _, rfl, _⟩
    · rwa [isWord_iff_toInt_ofInt.mp word]
    · decide

/-- A chunk has a proper slot once it was prepared, also if that failed. -/
theorem proper_prepare (chunk : Chunk) (table : SymbolTable) (sectionId index : Nat) :
    (chunk.prepare table sectionId index).1.slot.Proper := by
  cases result : chunk.prepare table sectionId index with
  | mk changed outcome =>
    cases outcome with
    | error halt =>
      obtain ⟨copies, rfl, ⟨rfl, _⟩ | ⟨_, _, counted, _⟩⟩ := prepare_failed result
      · exact ⟨by simp, by simp, by simp⟩
      · exact ⟨(initialCopies_proper counted).1, by simp, by simp⟩
    | ok spans =>
      obtain ⟨body, copies, _, measure, settled, counted, measured, rfl, _⟩ := prepare_ok result
      obtain ⟨nonneg, once⟩ := initialCopies_proper counted
      have proper : ∀ setter, measure.setter = some setter →
          setter.Proper ∧ body.kind.role = .offsetSetter :=
        fun _ rule => (Body.measured_of_ok measured).setter_proper rule
      refine ⟨nonneg, fun ruled => ?_, fun setter rule => (proper setter rule).1⟩
      obtain ⟨setter, rule⟩ := Option.ne_none_iff_exists'.mp ruled
      have kind : body.kind = chunk.kind := Body.kind_of_settle settled
      exact once (kind ▸ (proper setter rule).2)

/-- No chunk fails to be prepared because of an origin. -/
theorem prepare_error_ne {chunk : Chunk} {table : SymbolTable} {sectionId index : Nat}
    {reached start : UInt64} :
    (chunk.prepare table sectionId index).1.slot.error ≠ some (.originOverlap reached start) := by
  intro failed
  rw [Chunk.prepare_error] at failed
  have among := preparationProblem_causes failed (List.mem_singleton.mpr rfl)
  simp [preparationCauses] at among

section

variable {table : SymbolTable} {id : Nat} {sect : Section} {prepared : Prepared}

/-- No branch of a section has a near form that is shorter than its short form. -/
def Section.Lengthens (sect : Section) : Prop :=
  ∀ chunk ∈ sect.chunks, ∀ jump, chunk.body = .branch jump → jump.short.isSome →
    jump.shortLength ≤ jump.nearLength

/-- A branch starts in its short form, if it is watched. -/
theorem growable_relaxation (success : prepareAll table id 0 sect.chunks = .ok prepared)
    (longer : sect.Lengthens) : (prepared.relaxation id).Growable := by
  intro span member near slot purpose slotAt
  obtain ⟨index, chunk, chunkAt, registered⟩ := (mem_prepareAll_spans success).mp member
  obtain ⟨changed, spans, result, spanMember⟩ := Chunk.prepare_of_mem_preparedSpans registered
  have here := (span_of_prepare result id spanMember).1
  have sameSlot : slot = changed.slot := by
    rw [Prepared.relaxation, List.getElem?_map, here, prepareAll_getElem? success, chunkAt,
      Option.map_some, result, Option.map_some, Option.some.injEq] at slotAt
    exact slotAt.symm
  obtain ⟨body, copies, countSpan, measure, settled, counted, measuredOk, same, rfl⟩ :=
    prepare_ok result
  have length : slot.length = measure.length := by rw [sameSlot, same]
  rcases List.mem_append.mp spanMember with count | form
  · -- The span of a repeat count is no branch's.
    obtain rfl := Option.mem_toList.mp count
    have counts := (initialCopies_span counted 0 { copies } rfl).2.2.1
    rw [purpose] at counts
    cases counts
  · have registered := Option.mem_toList.mp form
    cases Body.measured_of_ok measuredOk with
    | branch chosen =>
      obtain ⟨_, _, _, _, ⟨_, _, absent⟩ | ⟨_, short, hasShort, ⟨_, absent⟩ | ⟨_, _, watched⟩⟩⟩ :=
        Branch.measure_ok chosen
      · rw [absent] at registered
        cases registered
      · rw [absent] at registered
        cases registered
      · rw [watched, Option.some.injEq] at registered
        rw [← registered, Purpose.branch.injEq] at purpose
        obtain ⟨source, isBranch, settles⟩ := Body.settle_branch settled
        rw [length, short, ← purpose, Branch.settle_eq settles]
        refine longer chunk (List.mem_of_getElem? chunkAt) source isBranch ?_
        rwa [Branch.settle_eq settles] at hasShort
    | deferred =>
      rw [Option.some.injEq] at registered
      rw [← registered] at purpose
      cases purpose
    | data | constant | reserve | binary | align | org | instruction => cases registered

/-- A relaxation advances from its first offsets on. -/
theorem advancing_relaxation (success : prepareAll table id 0 sect.chunks = .ok prepared)
    (bounded : (prepared.relaxation id).assignOffsets.exactSize < 2 ^ 63) :
    Relaxation.Advancing (prepared.relaxation id) (prepared.relaxation id).assignOffsets where
  frame := (Relaxation.Frame.refl _).assignOffsets
  coherent := (coherent_relaxation success).assignOffsets
  grounded := by
    have source : ∀ (index : Nat) (slot : Slot),
        (prepared.relaxation id).slots[index]? = some slot →
        ∃ chunk : Chunk, (chunk.prepare table id index).1.slot = slot := by
      intro index slot slotAt
      rw [Prepared.relaxation, List.getElem?_map, prepareAll_getElem? success, Option.map_map,
        Option.map_eq_some_iff] at slotAt
      obtain ⟨chunk, _, same⟩ := slotAt
      exact ⟨chunk, same⟩
    refine Grounded.of_placeSlots ?_ bounded ?_
    · intro slot member
      obtain ⟨index, slotAt⟩ := List.mem_iff_getElem?.mp member
      obtain ⟨chunk, rfl⟩ := source index slot slotAt
      exact proper_prepare chunk table id index
    · intro index old new oldAt _ reached start failed
      obtain ⟨chunk, rfl⟩ := source index old oldAt
      exact absurd failed prepare_error_ne

/-- The loops of a layout after a number of turns. -/
def Prepared.run (prepared : Prepared) (id : Nat) (maxPasses : Int) (turn : Nat) :
    Relaxation.Loop :=
  let limit := Relaxation.passLimit maxPasses prepared.spans.length
  let budget := (Int64.ofInt ((limit : Int) * max 1 prepared.spans.length)).toInt
  (Relaxation.Loop.turn limit budget)^[turn] ⟨(prepared.relaxation id).assignOffsets, .pass⟩

/-- The loops of a layout are left after a number of turns, with what the relaxation settles on. -/
structure Prepared.Leaves (prepared : Prepared) (id : Nat) (maxPasses : Int) (turns : Nat)
    (converged : Bool) : Prop where
  done : (prepared.run id maxPasses turns).phase = .done converged
  settles : (prepared.relaxation id).settle maxPasses =
    if converged then (prepared.run id maxPasses turns).state.assignOffsets
    else (prepared.run id maxPasses turns).state

/-- The turns of a layout's loops come to an end. -/
theorem Prepared.exists_leaves (prepared : Prepared) (id : Nat) (maxPasses : Int) :
    ∃ turns converged, prepared.Leaves id maxPasses turns converged := by
  let limit := Relaxation.passLimit maxPasses prepared.spans.length
  let budget := (Int64.ofInt ((limit : Int) * max 1 prepared.spans.length)).toInt
  obtain ⟨turns, turned⟩ :
      Relaxation.Loop.Comes limit budget ⟨(prepared.relaxation id).assignOffsets, .pass⟩ _ :=
    Relaxation.Loop.comes_of_runPasses (Nat.zero_add limit) (Nat.zero_add budget.toNat)
  cases passes : Relaxation.runPasses limit limit budget.toNat
      (prepared.relaxation id).assignOffsets with
  | mk state converged =>
    rw [passes] at turned
    have run_eq : prepared.run id maxPasses turns = ⟨state, .done converged⟩ := turned
    refine ⟨turns, converged, by rw [run_eq], ?_⟩
    rw [run_eq]
    exact Relaxation.settle_eq passes

/-- Once the loops are left, turns change nothing. -/
theorem Prepared.run_of_done {maxPasses : Int} {turns turn : Nat} {converged : Bool}
    (done : (prepared.run id maxPasses turns).phase = .done converged) (le : turns ≤ turn) :
    prepared.run id maxPasses turn = prepared.run id maxPasses turns := by
  rw [run, ← Nat.sub_add_cancel le, Function.iterate_add_apply]
  refine Function.iterate_fixed ?_ _
  change Relaxation.Loop.turn _ _ (prepared.run id maxPasses turns) =
    prepared.run id maxPasses turns
  simp [Relaxation.Loop.turn, done]

/-- From one turn of a layout's loops to the next, and at its last assignment of offsets, no offset
moves back and the size does not shrink, as long as no branch has a near form that is shorter than
its short form and the exact size stays below the bound of words. An origin that could not be
reached lies before its chunk under the final offsets, too. -/
theorem layout_offsets_advance (resolved : prepareAll table id 0 sect.chunks = .ok prepared)
    (longer : sect.Lengthens) (maxPasses : Int) :
    let run := prepared.run id maxPasses
    (∀ turn, (∀ earlier ≤ turn + 1, (run earlier).state.exactSize < 2 ^ 63) →
      (run turn).state.Advances (run (turn + 1)).state) ∧
    ∃ turns converged layout,
      (run turns).phase = .done converged ∧ sect.layout table maxPasses id = .ok layout ∧
      let last := if converged then (run turns).state.assignOffsets else (run turns).state
      layout.sect.slots = last.slots ∧ layout.sect.size = last.size ∧
      ((∀ turn ≤ turns, (run turn).state.exactSize < 2 ^ 63) → last.exactSize < 2 ^ 63 →
        (run turns).state.Advances last ∧
        ∀ chunk ∈ layout.sect.chunks, ∀ reached origin,
          chunk.slot.error = some (.originOverlap reached origin) →
            chunk.slot.setter = some (.origin origin) ∧ origin < chunk.slot.offset) := by
  intro run
  have growable := growable_relaxation resolved longer
  have distinct := nodup_spanKeys resolved
  have advancing : ∀ turn, (∀ earlier ≤ turn, (run earlier).state.exactSize < 2 ^ 63) →
      Relaxation.Advancing (prepared.relaxation id) (run turn).state := fun turn bounded =>
    Relaxation.Advancing.turns growable distinct
      (advancing_relaxation resolved (bounded 0 (Nat.zero_le _))) bounded
  constructor
  · intro turn bounded
    have before := advancing turn fun earlier within => bounded earlier (by omega)
    have now := bounded (turn + 1) (Nat.le_refl _)
    simp only [run, Prepared.run, Function.iterate_succ_apply'] at now ⊢
    exact (before.turn growable distinct now).1
  · obtain ⟨turns, converged, leaves⟩ := prepared.exists_leaves id maxPasses
    have slots : (sect.recorded prepared ((prepared.relaxation id).settle maxPasses)).sect.slots =
        ((prepared.relaxation id).settle maxPasses).slots :=
      slots_recorded ((frame_settle prepared id maxPasses).length.trans (List.length_map _))
    refine ⟨turns, converged, _, leaves.done, layout_eq_ok_iff.mpr ⟨prepared, resolved, rfl⟩,
      ?_, ?_, ?_⟩
    · rw [slots, leaves.settles]
    · exact congrArg Relaxation.size leaves.settles
    · intro bounded boundedLast
      have final : (run turns).state.Advances ((prepared.relaxation id).settle maxPasses) ∧
          Relaxation.Advancing (prepared.relaxation id)
            ((prepared.relaxation id).settle maxPasses) := by
        rw [leaves.settles]
        cases converged with
        | true => exact (advancing turns bounded).assign boundedLast
        | false => exact ⟨.of_eq rfl rfl, advancing turns bounded⟩
      rw [← leaves.settles]
      refine ⟨final.1, fun chunk member reached origin failed => ?_⟩
      have slotMember : chunk.slot ∈ ((prepared.relaxation id).settle maxPasses).slots := by
        rw [← slots]
        exact List.mem_map_of_mem member
      exact final.2.grounded.overlapped chunk.slot slotMember reached origin failed

end

/-- A jump that grows beyond the origin behind it, which was reached as long as the jump was
short. -/
def outgrownOrigin : Section where
  name := ".text"
  chunks :=
    [{ body := .branch (Machine.jmp (.ofLocation ⟨0, 3, 0⟩)) },
      { body := .org { start := .ofInt 3 } },
      { body := .reserve (.ofInt 200) 1 }]

/-- The origin is reached under the first offsets, and behind the near form it is not; the reserved
bytes move from 3 to 5, and the origin at 3 lies before its chunk in the end. -/
theorem outgrownOrigin_advances :
    ∃ prepared, prepareAll {} 0 0 outgrownOrigin.chunks = .ok prepared ∧
      (prepared.relaxation 0).assignOffsets.slots.map Slot.offset = [0, 2, 3] ∧
      ∃ layout, outgrownOrigin.layout {} 0 0 = .ok layout ∧
        layout.sect.slots.map Slot.offset = [0, 5, 5] ∧
        ∃ chunk ∈ layout.sect.chunks, chunk.slot.error = some (.originOverlap 5 3) ∧
          chunk.slot.setter = some (.origin 3) ∧ 3 < chunk.slot.offset := by
  obtain ⟨prepared, resolved, first, done, early⟩ := exists_ok_of_any
    (p := fun prepared =>
      (prepared.relaxation 0).assignOffsets.slots.map Slot.offset = [0, 2, 3] ∧
      (prepared.run 0 0 4).phase = .done true ∧
      ∀ turn ≤ 4, (prepared.run 0 0 turn).state.exactSize < 1000 ∧
        (prepared.run 0 0 turn).state.assignOffsets.exactSize < 1000)
    (prepareAll {} 0 0 outgrownOrigin.chunks) (by decide +kernel)
  have always : ∀ turn, (prepared.run 0 0 turn).state.exactSize < 1000 ∧
      (prepared.run 0 0 turn).state.assignOffsets.exactSize < 1000 := by
    intro turn
    rcases Nat.le_total turn 4 with within | beyond
    · exact early turn within
    · rw [Prepared.run_of_done done beyond]
      exact early 4 (Nat.le_refl 4)
  have longer : outgrownOrigin.Lengthens := by
    intro chunk member jump isBranch _
    simp only [outgrownOrigin, List.mem_cons, List.not_mem_nil, or_false] at member
    rcases member with rfl | rfl | rfl
    · cases isBranch
      decide
    · cases isBranch
    · cases isBranch
  obtain ⟨_, turns, converged, layout, _, success, _, _, advances⟩ :=
    layout_offsets_advance resolved longer 0
  obtain ⟨found, foundOk, offsets, failed⟩ := exists_ok_of_any
    (p := fun layout => layout.sect.slots.map Slot.offset = [0, 5, 5] ∧
      ∃ chunk ∈ layout.sect.chunks, chunk.slot.error = some (.originOverlap 5 3))
    (outgrownOrigin.layout {} 0 0) (by decide +kernel)
  rw [success, Except.ok.injEq] at foundOk
  subst foundOk
  obtain ⟨chunk, member, failed⟩ := failed
  have behind := advances (fun turn _ => (always turn).1.trans (by decide)) ?_
  · exact ⟨prepared, resolved, first, layout, success, offsets, chunk, member, failed,
      behind.2 chunk member 5 3 failed⟩
  · cases converged with
    | true => exact (always turns).2.trans (by decide)
    | false => exact (always turns).1.trans (by decide)

end Assembler
