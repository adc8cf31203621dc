import Assembler.Proofs.Layout.Window
import Assembler.Proofs.Relaxation.Minimal

/-!
# Layout chooses the least forms

In a section of branches to its own labels and of contents of fixed length, the near branches of a
layout are those that every valid choice of forms makes near (`layout_forms_least`). Validity is
said of any choice, at the offsets that it gives the chunks (`Section.Valid`), and holds of the
choice that layout makes.
-/

namespace Assembler

/-- The branch of a body whose form layout chooses. -/
def Body.openBranch? : Body → Option Branch
  | .branch jump => if jump.form = .auto ∧ jump.short.isSome then some jump else none
  | _ => none

/-- The open branches are those without a fixed form that have a short one. -/
theorem Body.openBranch?_eq_some {body : Body} {jump : Branch} :
    body.openBranch? = some jump ↔
      body = .branch jump ∧ jump.form = .auto ∧ jump.short.isSome = true := by
  cases body with
  | branch other =>
    simp only [openBranch?, Option.ite_none_right_eq_some, Option.some.injEq, Body.branch.injEq]
    constructor
    · rintro ⟨chosen, rfl⟩
      exact ⟨rfl, chosen⟩
    · rintro ⟨rfl, chosen⟩
      exact ⟨chosen, rfl⟩
  | _ => simp [openBranch?]

/-- The number of bytes of one copy, if the branch is in this form. -/
def Chunk.lengthIn (chunk : Chunk) (near : Bool) : Nat :=
  match chunk.body.openBranch? with
  | some jump => jump.exactLength near
  | none => chunk.exactLength

/-- An open branch has the length of the form that it is given. -/
theorem Chunk.lengthIn_of_open {chunk : Chunk} {jump : Branch}
    (opened : chunk.body.openBranch? = some jump) (near : Bool) :
    chunk.lengthIn near = jump.exactLength near := by
  rw [lengthIn, opened]

/-- Other chunks keep their length. -/
theorem Chunk.lengthIn_of_closed {chunk : Chunk} (closed : chunk.body.openBranch? = none)
    (near : Bool) : chunk.lengthIn near = chunk.exactLength := by
  rw [lengthIn, closed]

/-- Near forms are not shorter. -/
theorem Chunk.lengthIn_mono {chunk : Chunk}
    (longer : ∀ jump, chunk.body.openBranch? = some jump →
      jump.exactLength false ≤ jump.exactLength true) {near other : Bool}
    (more : near = true → other = true) : chunk.lengthIn near ≤ chunk.lengthIn other := by
  cases opened : chunk.body.openBranch? with
  | none => rw [lengthIn_of_closed opened, lengthIn_of_closed opened]
  | some jump =>
    rw [lengthIn_of_open opened, lengthIn_of_open opened]
    cases near with
    | true => rw [more rfl]
    | false =>
      cases other with
      | true => exact longer jump opened
      | false => exact Nat.le_refl _

namespace Section

/-- The extents of the chunks, if the branches are in these forms. -/
def extentsIn (sect : Section) (forms : Nat → Bool) : List Nat :=
  sect.chunks.mapIdx fun index chunk => chunk.lengthIn (forms index) * chunk.count

/-- Every branch that is short reaches its target, a chunk of the section with this number, at the
offsets that the forms give: the last copy backwards and the first one forwards. -/
def Valid (sect : Section) (id : Nat) (forms : Nat → Bool) : Prop :=
  ∀ (index : Nat) (chunk : Chunk) (jump : Branch) (target : Nat),
    sect.chunks[index]? = some chunk → chunk.body.openBranch? = some jump →
    jump.target.expr = .ofLocation ⟨id, target, 0⟩ → forms index = false →
    -128 + (jump.exactLength false * chunk.count : Nat) ≤
        gap (sect.extentsIn forms) index target ∧
      gap (sect.extentsIn forms) index target ≤ 127 + jump.exactLength false

/-- The forms that a layout chose. -/
def forms (sect : Section) (index : Nat) : Bool :=
  (sect.chunks[index]?.map fun chunk => chunk.slot.near).getD false

end Section

/-- A chunk whose length is fixed, or a branch to a label of its section that has no near form
shorter than its short one, repeated a constant number of times. -/
structure Chunk.Elementary (chunk : Chunk) (table : SymbolTable) (id index : Nat) : Prop where
  fixed : chunk.kind ≠ .leb128 ∧ chunk.kind.role ≠ .offsetSetter
  counted : ∀ count, chunk.repeats = some count →
    ∃ expanded, table.expand count = .ok expanded ∧ expanded.isConstant = true ∧
      (chunk.body.openBranch?.isSome = true → 1 ≤ expanded.constant)
  /-- The near form is not the shorter one, and the window of the short form ends at a signed
  word. -/
  longer : ∀ jump, chunk.body.openBranch? = some jump →
    jump.exactLength false ≤ jump.exactLength true ∧ jump.exactLength false + 128 < 2 ^ 63
  /-- The target is the start of a chunk of the section. -/
  aimed : ∀ jump, chunk.body.openBranch? = some jump →
    ∃ target settled, jump.target.settle table ⟨id, index, 0⟩ = .ok settled ∧
      settled.symbol = none ∧ settled.expr = .ofLocation ⟨id, target, 0⟩

/-- What preparing an elementary chunk gives. -/
structure Chunk.Ready (chunk : Chunk) (id index : Nat) (spans : List Span) : Prop where
  ruleless : chunk.slot.setter = none
  counted : 0 ≤ chunk.slot.copies.toInt
  fixed : chunk.body.openBranch? = none → spans = []
  short : ∀ jump, chunk.body.openBranch? = some jump →
    jump.exactLength false ≤ jump.exactLength true ∧ jump.exactLength false + 128 < 2 ^ 63 ∧
    chunk.slot.length = jump.shortLength ∧ 1 ≤ chunk.slot.copies.toInt ∧
    (∃ target, jump.target.symbol = none ∧ jump.target.expr = .ofLocation ⟨id, target, 0⟩ ∧
      jump.target.origin = some ⟨id, index, 0⟩) ∧
    spans =
      [{ index
         purpose := .branch jump.nearLength
         field := jump.target
         low := -128 + jump.shortLength.toInt64 * max 1 chunk.slot.copies
         high := 127 + jump.shortLength.toInt64 }]

/-- The number of copies of an elementary chunk is not watched. -/
theorem Chunk.Elementary.initialCopies {chunk : Chunk} {table : SymbolTable} {id index : Nat}
    (elementary : chunk.Elementary table id index) {copies : Int64} {span : Option Span}
    (success : chunk.initialCopies table id index = .ok (copies, span)) :
    span = none ∧ 0 ≤ copies.toInt ∧
      (chunk.body.openBranch?.isSome = true → 1 ≤ copies.toInt) := by
  rcases initialCopies_ok success with
    ⟨_, rfl, unwatched⟩ | ⟨count, expanded, repeated, _, same, found⟩
  · exact ⟨unwatched, by decide, fun _ => by decide⟩
  · obtain ⟨other, expands, constant, once⟩ := elementary.counted count repeated
    rw [same, Except.ok.injEq] at expands
    subst expands
    rcases found with ⟨_, word, positive, rfl, unwatched⟩ | ⟨watched, _⟩
    · rw [isWord_iff_toInt_ofInt.mp word]
      exact ⟨unwatched, positive, once⟩
    · rw [constant] at watched
      cases watched

/-- A branch whose form is open starts short and is watched. -/
theorem Branch.measure_open {branch : Branch} {index : Nat} {counted : Bool} {copies : Int64}
    {measure : Measure} (success : branch.measure index counted copies = .ok measure)
    (auto : branch.form = .auto) (short : branch.short.isSome = true) (once : copies ≠ 0) :
    measure =
      { length := branch.shortLength
        body := .branch branch
        span := some
          { index
            purpose := .branch branch.nearLength
            field := branch.target
            low := -128 + branch.shortLength.toInt64 * max 1 copies
            high := 127 + branch.shortLength.toInt64 } } := by
  unfold Branch.measure at success
  split at success
  · cases success
  · have chosen : ¬ (branch.short.isNone || (counted && decide (copies = 0))) = true := by
      simp [once, Option.isSome_iff_ne_none.mp short]
    simp only [auto, if_neg chosen, Except.ok.injEq] at success
    exact success.symm

/-- An elementary chunk is ready once it was prepared. -/
theorem Chunk.Elementary.prepare {chunk prepared : Chunk} {table : SymbolTable} {id index : Nat}
    {spans : List Span} (elementary : chunk.Elementary table id index)
    (success : chunk.prepare table id index = (prepared, .ok spans)) :
    prepared.Ready id index spans := by
  obtain ⟨body, copies, countSpan, measure, settled, counted, measuredOk, rfl, rfl⟩ :=
    prepare_ok success
  obtain ⟨rfl, nonneg, once⟩ := elementary.initialCopies counted
  have measured := Body.measured_of_ok measuredOk
  have kind : body.kind = chunk.kind := Body.kind_of_settle settled
  have notLeb := kind ▸ elementary.fixed.1
  have ruleless := measured.setter_none (kind ▸ elementary.fixed.2)
  cases measured with
  | branch chosen =>
    rename_i jump
    obtain ⟨source, isSource, settles⟩ := Body.settle_branch settled
    have kept := Branch.settle_eq settles
    obtain ⟨_, _, sameBody, _, forms⟩ := Branch.measure_ok chosen
    refine ⟨ruleless, nonneg, ?_, ?_⟩
    · intro closed
      rcases forms with ⟨_, _, unwatched⟩ | ⟨_, _, short, ⟨_, unwatched⟩ | ⟨auto, _⟩⟩
      · simp [unwatched]
      · simp [unwatched]
      · have opened : measure.body.openBranch? = some jump :=
          Body.openBranch?_eq_some.mpr ⟨sameBody, auto, short⟩
        rw [opened] at closed
        cases closed
    · intro other opened
      obtain ⟨isOther, auto, short⟩ := Body.openBranch?_eq_some.mp opened
      obtain rfl : jump = other := by
        rw [sameBody, Body.branch.injEq] at isOther
        exact isOther
      have sourceOpen : chunk.body.openBranch? = some source := by
        rw [kept] at auto short
        exact Body.openBranch?_eq_some.mpr ⟨isSource, auto, short⟩
      have repeated := once (by rw [sourceOpen]; rfl)
      obtain ⟨longer, small⟩ := elementary.longer source sourceOpen
      obtain ⟨target, field, fieldSettled, unsymbolic, plain⟩ := elementary.aimed source sourceOpen
      obtain ⟨found, foundSettled, sameTarget⟩ := Branch.settle_target settles
      rw [fieldSettled, Except.ok.injEq] at foundSettled
      subst foundSettled
      have measure_eq := Branch.measure_open chosen auto short (by
        rintro rfl
        exact absurd repeated (by decide))
      refine ⟨?_, ?_, by rw [measure_eq], repeated, ⟨target, ?_, ?_, ?_⟩, by rw [measure_eq]; rfl⟩
      · rw [kept]
        exact longer
      · rw [kept]
        exact small
      · rw [sameTarget]
        exact unsymbolic
      · rw [sameTarget]
        exact plain
      · rw [sameTarget]
  | constant | deferred => exact absurd rfl notLeb
  | data | reserve | binary => exact ⟨ruleless, nonneg, fun _ => rfl, by simp [Body.openBranch?]⟩
  | align | org => exact absurd rfl (kind ▸ elementary.fixed.2)
  | instruction => exact ⟨ruleless, nonneg, fun _ => rfl, by simp [Body.openBranch?]⟩

namespace Section

/-- No near form of a branch whose form is open is shorter than the short one. -/
def Lengthening (sect : Section) : Prop :=
  ∀ chunk ∈ sect.chunks, ∀ jump, chunk.body.openBranch? = some jump →
    jump.exactLength false ≤ jump.exactLength true

variable {sect : Section} {forms others : Nat → Bool}

/-- A chunk extends over its copies in the form that it is given. -/
theorem extentsIn_getElem? (sect : Section) (forms : Nat → Bool) (index : Nat) :
    (sect.extentsIn forms)[index]? =
      (sect.chunks[index]?).map fun chunk => chunk.lengthIn (forms index) * chunk.count := by
  rw [extentsIn, List.getElem?_mapIdx]

/-- More near forms make no chunk smaller. -/
theorem extentsIn_mono (lengthening : sect.Lengthening)
    (more : ∀ index, forms index = true → others index = true) :
    List.Forall₂ (· ≤ ·) (sect.extentsIn forms) (sect.extentsIn others) := by
  refine List.forall₂_iff_get.mpr ⟨by simp [extentsIn], fun index inForms inOthers => ?_⟩
  simp only [extentsIn, List.get_eq_getElem, List.getElem_mapIdx]
  exact Nat.mul_le_mul_right _
    (Chunk.lengthIn_mono (lengthening _ (List.getElem_mem _)) (more index))

/-- A branch that is short under one of two valid choices reaches its target when all branches are
short that are short under one of them. -/
theorem Valid.meet {id : Nat} (lengthening : sect.Lengthening) (valid : sect.Valid id forms)
    (alsoValid : sect.Valid id others) :
    sect.Valid id fun index => forms index && others index := by
  intro index chunk jump target chunkAt opened plain short
  change (forms index && others index) = false at short
  have own : (sect.extentsIn fun index => forms index && others index)[index]? =
      some (jump.exactLength false * chunk.count) := by
    rw [extentsIn_getElem?, chunkAt, Option.map_some, short, Chunk.lengthIn_of_open opened]
  have reaches : ∀ choice, sect.Valid id choice → choice index = false →
      (∀ place, (forms place && others place) = true → choice place = true) →
      -128 + (jump.exactLength false * chunk.count : Nat) ≤
          gap (sect.extentsIn fun index => forms index && others index) index target ∧
        gap (sect.extentsIn fun index => forms index && others index) index target ≤
          127 + jump.exactLength false := by
    intro choice chosen isShort more
    obtain ⟨above, within⟩ := chosen index chunk jump target chunkAt opened plain isShort
    have window := window_of_le (extentsIn_mono lengthening more) own (by omega) (by omega) within
    omega
  rcases Bool.and_eq_false_iff.mp short with first | second
  · exact reaches forms valid first fun place both => (Bool.and_eq_true_iff.mp both).1
  · exact reaches others alsoValid second fun place both => (Bool.and_eq_true_iff.mp both).2

end Section

/-- The word of a short form's length stands for it. -/
theorem Branch.toNat_shortLength {jump : Branch} (small : jump.exactLength false + 128 < 2 ^ 63) :
    jump.shortLength.toNat = jump.exactLength false := by
  rw [show jump.shortLength = jump.formLength false from rfl, Branch.formLength_eq]
  exact UInt64.toNat_ofNat_of_lt' (by simp only [UInt64.size]; omega)

section

variable {table : SymbolTable} {id : Nat} {sect : Section} {prepared : Prepared}
  {relaxed : Relaxation}

/-- The span of an elementary branch aims at the target of the branch. -/
theorem Chunk.Ready.aimed {first : Chunk} {spans : List Span} {span : Span} {jump : Branch}
    (ready : first.Ready id span.index spans) (opened : first.body.openBranch? = some jump)
    (listed : span ∈ spans) (bounded : first.slot.extent < 2 ^ 63)
    (slotAt : (prepared.relaxation id).slots[span.index]? = some first.slot) :
    ∃ target, jump.target.expr = .ofLocation ⟨id, target, 0⟩ ∧
      Relaxation.Aimed (prepared.relaxation id) span jump.nearLength first.slot target := by
  obtain ⟨_, small, short, once, ⟨target, unsymbolic, plain, counted⟩, only⟩ :=
    ready.short jump opened
  rw [only, List.mem_singleton] at listed
  have field : span.field = jump.target := by rw [listed]
  refine ⟨target, plain, by rw [listed], by rw [listed], slotAt, ?_, ?_, ?_, ?_⟩
  · rw [field]
    simp [Field.positions, unsymbolic, plain, counted, Expr.ofLocation, Prepared.relaxation]
  · rw [field, plain]
    rfl
  · have low : span.low = -128 + first.slot.length.toInt64 * max 1 first.slot.copies := by
      rw [listed, short]
    rw [low]
    exact window_low once bounded
  · have high : span.high = 127 + first.slot.length.toInt64 := by rw [listed, short]
    have exactShort := Branch.toNat_shortLength small
    rw [high]
    exact window_high (by rw [short]; omega)

variable (success : prepareAll table id 0 sect.chunks = .ok prepared)
  (clean : prepared.problems = []) (frame : Relaxation.Frame (prepared.relaxation id) relaxed)
  (elementary : ∀ (index : Nat) (chunk : Chunk), sect.chunks[index]? = some chunk →
    chunk.Elementary table id index)
include success clean frame elementary

/-- A chunk of a layout beside the chunk that its relaxation started from. -/
theorem ready_recorded {index : Nat} {slot : Slot}
    (slotAt : (prepared.relaxation id).slots[index]? = some slot) :
    ∃ (first : Chunk) (spans : List Span) (final : Chunk),
      first.slot = slot ∧ first.Ready id index spans ∧
      (∀ span, span ∈ spans ↔ span ∈ prepared.spans ∧ span.index = index) ∧
      (sect.recorded prepared relaxed).sect.chunks[index]? = some final ∧
      final.body = first.body ∧ final.slot.copies = slot.copies ∧
      (first.body.openBranch? = none → final.slot.length = slot.length) := by
  have changedAt := slotAt
  rw [Prepared.relaxation, List.getElem?_map, Option.map_eq_some_iff] at changedAt
  obtain ⟨changed, changedAt, rfl⟩ := changedAt
  have sourceAt := changedAt
  rw [prepareAll_getElem? success, Option.map_eq_some_iff] at sourceAt
  obtain ⟨source, sourceAt, same⟩ := sourceAt
  obtain ⟨other, spans, result⟩ := prepare_of_clean success clean sourceAt
  rw [result] at same
  obtain rfl : other = changed := same
  have ready := (elementary index source sourceAt).prepare result
  have among : ∀ span, span ∈ spans ↔ span ∈ prepared.spans ∧ span.index = index := by
    intro span
    constructor
    · intro member
      refine ⟨(mem_prepareAll_spans success).mpr ⟨index, source, sourceAt, ?_⟩,
        (span_of_prepare result id member).1⟩
      simpa [Chunk.preparedSpans, result, Except.toOption] using member
    · rintro ⟨member, here⟩
      exact span_of_index success sourceAt result member here
  have inRange : index < relaxed.slots.length :=
    frame.length ▸ (List.getElem?_eq_some_iff.mp slotAt).1
  have finalAt : relaxed.slots[index]? = some relaxed.slots[index] :=
    List.getElem?_eq_getElem inRange
  have evolves := frame.slots slotAt finalAt
  -- All spans of the chunk are those of a branch, and there is none if the form is not open.
  have branches : ∀ purpose, (prepared.relaxation id).Watches index purpose →
      ∃ jump, other.body.openBranch? = some jump ∧ purpose = .branch jump.nearLength := by
    rintro purpose ⟨span, member, here, rfl⟩
    have listed := (among span).mpr ⟨member, here⟩
    cases opened : other.body.openBranch? with
    | none =>
      rw [ready.fixed opened] at listed
      cases listed
    | some jump =>
      obtain ⟨_, _, _, _, _, only⟩ := ready.short jump opened
      rw [only, List.mem_singleton] at listed
      exact ⟨jump, rfl, by rw [listed]⟩
  refine ⟨other, spans, { other with slot := relaxed.slots[index] }, rfl, ready, among, ?_, rfl, ?_,
    ?_⟩
  · simp only [Section.recorded, List.getElem?_zipWith, changedAt, finalAt]
  · refine evolves.copies fun watched => ?_
    obtain ⟨_, _, impossible⟩ := branches _ watched
    cases impossible
  · intro closed
    refine evolves.length (fun signed watched => ?_) (.inl fun near watched => ?_) ready.ruleless
    · obtain ⟨_, _, impossible⟩ := branches _ watched
      cases impossible
    · obtain ⟨_, opened, _⟩ := branches _ watched
      rw [closed] at opened
      cases opened

/-- A branch whose form is open comes from an elementary chunk, and a span watches it. -/
theorem exists_span_of_openBranch {index : Nat} {chunk : Chunk} {jump : Branch}
    (chunkAt : (sect.recorded prepared relaxed).sect.chunks[index]? = some chunk)
    (opened : chunk.body.openBranch? = some jump) :
    jump.exactLength false ≤ jump.exactLength true ∧ jump.exactLength false + 128 < 2 ^ 63 ∧
      ∃ span ∈ prepared.spans, span.index = index ∧ span.purpose = .branch jump.nearLength := by
  have inRange : index < (prepared.relaxation id).slots.length := by
    have inside := (List.getElem?_eq_some_iff.mp chunkAt).1
    simp only [Section.recorded, List.length_zipWith] at inside
    rw [← frame.length]
    omega
  obtain ⟨first, spans, final, _, ready, among, finalAt, body, _⟩ :=
    ready_recorded success clean frame elementary (List.getElem?_eq_getElem inRange)
  rw [chunkAt, Option.some.injEq] at finalAt
  subst finalAt
  obtain ⟨longer, small, _, _, _, only⟩ := ready.short jump (body ▸ opened)
  exact ⟨longer, small, _, ((among _).mp (only ▸ List.mem_singleton.mpr rfl)).1, rfl, rfl⟩

/-- No form makes a chunk shorter than it starts out. -/
theorem exists_extent_ge (laidOut : (sect.recorded prepared relaxed).sect.Clean table id)
    (forms : Nat → Bool) {index : Nat} {slot : Slot}
    (slotAt : (prepared.relaxation id).slots[index]? = some slot) :
    ∃ extent, ((sect.recorded prepared relaxed).sect.extentsIn forms)[index]? = some extent ∧
      slot.extent ≤ extent := by
  obtain ⟨first, spans, final, rfl, ready, _, finalAt, body, copies, length⟩ :=
    ready_recorded success clean frame elementary slotAt
  refine ⟨_, by rw [Section.extentsIn_getElem?, finalAt, Option.map_some], ?_⟩
  cases opened : first.body.openBranch? with
  | none =>
    have same : first.slot.extent = final.extent := by
      rw [Slot.extent, Chunk.extent, Chunk.count, length opened, copies]
    rw [same, Chunk.lengthIn_of_closed (body ▸ opened)]
    exact laidOut.extent_le finalAt
  | some jump =>
    obtain ⟨longer, small, short, _⟩ := ready.short jump opened
    rw [Chunk.lengthIn_of_open (body ▸ opened), Slot.extent, Chunk.count, copies, short,
      Branch.toNat_shortLength small]
    apply Nat.mul_le_mul_right
    cases forms index with
    | true => exact longer
    | false => exact Nat.le_refl _

/-- A valid choice of forms is a ceiling of the relaxation. -/
theorem ceiling_of_valid (laidOut : (sect.recorded prepared relaxed).sect.Clean table id)
    {forms : Nat → Bool} (valid : (sect.recorded prepared relaxed).sect.Valid id forms)
    (bounded : ((sect.recorded prepared relaxed).sect.extentsIn forms).sum < 2 ^ 63) :
    Relaxation.Ceiling (prepared.relaxation id) forms
      ((sect.recorded prepared relaxed).sect.extentsIn forms) := by
  refine ⟨?_, ?_, bounded, ?_⟩
  · intro slot member
    obtain ⟨index, slotAt⟩ := List.mem_iff_getElem?.mp member
    obtain ⟨first, _, _, rfl, ready, _⟩ := ready_recorded success clean frame elementary slotAt
    exact ⟨ready.ruleless, ready.counted⟩
  · have lengths : ((sect.recorded prepared relaxed).sect.extentsIn forms).length =
        (prepared.relaxation id).slots.length := by
      simp only [Section.extentsIn, List.length_mapIdx, Section.recorded, List.length_zipWith,
        frame.length, Prepared.relaxation, List.length_map, Nat.min_self]
    refine List.forall₂_iff_get.mpr ⟨by rw [List.length_map, lengths], ?_⟩
    intro index inStart inExtents
    rw [List.length_map] at inStart
    obtain ⟨extent, extentAt, le⟩ := exists_extent_ge success clean frame elementary laidOut forms
      (List.getElem?_eq_getElem inStart)
    rw [List.getElem?_eq_getElem inExtents, Option.some.injEq] at extentAt
    rw [List.get_eq_getElem, List.get_eq_getElem, List.getElem_map, extentAt]
    exact le
  · intro span member
    obtain ⟨found, foundAt, _⟩ := (coherent_relaxation success).watched span member
    obtain ⟨first, spans, final, rfl, ready, among, finalAt, body, copies, _⟩ :=
      ready_recorded success clean frame elementary foundAt
    have listed := (among span).mpr ⟨member, rfl⟩
    cases opened : first.body.openBranch? with
    | none =>
      rw [ready.fixed opened] at listed
      cases listed
    | some jump =>
      obtain ⟨ownExtent, ownAt, ownLe⟩ :=
        exists_extent_ge success clean frame elementary laidOut forms foundAt
      have ownSmall : first.slot.extent < 2 ^ 63 :=
        Nat.lt_of_le_of_lt
          (ownLe.trans (List.single_le_sum (by simp) _ (List.mem_of_getElem? ownAt))) bounded
      obtain ⟨target, plain, aimed⟩ := ready.aimed opened listed ownSmall foundAt
      refine ⟨jump.nearLength, first.slot, target, aimed, fun near => ?_, fun isShort => ?_⟩
      · refine ⟨_, by rw [Section.extentsIn_getElem?, finalAt, Option.map_some], ?_⟩
        rw [near, Chunk.lengthIn_of_open (body ▸ opened), Chunk.count, copies]
        apply Nat.mul_le_mul_right
        rw [show jump.nearLength = jump.formLength true from rfl, Branch.formLength_eq,
          UInt64.toNat_ofNat']
        exact Nat.mod_le _ _
      · have window := valid span.index final jump target finalAt (body ▸ opened) plain isShort
        obtain ⟨_, small, short, _⟩ := ready.short jump opened
        have exactShort := Branch.toNat_shortLength small
        have extent : first.slot.extent = jump.exactLength false * final.count := by
          rw [Slot.extent, short, exactShort, Chunk.count, copies]
        rw [extent, short, exactShort]
        omega

end

section

variable {table : SymbolTable} {id : Nat} {sect : Section}

/-- The extents of the forms that layout chose are those of its chunks. -/
theorem extentsIn_forms (laid : Section) :
    laid.extentsIn laid.forms = laid.chunks.map fun chunk => chunk.exactLength * chunk.count := by
  apply List.ext_getElem?
  intro index
  rw [Section.extentsIn_getElem?, List.getElem?_map]
  cases chunkAt : laid.chunks[index]? with
  | none => rfl
  | some chunk =>
    have form : laid.forms index = chunk.slot.near := by simp [Section.forms, chunkAt]
    rw [Option.map_some, Option.map_some, form]
    cases opened : chunk.body.openBranch? with
    | none => rw [Chunk.lengthIn_of_closed opened]
    | some jump =>
      rw [Chunk.lengthIn_of_open opened, Chunk.exactLength,
        (Body.openBranch?_eq_some.mp opened).1]

/-- In a section that is not too large, all extents are exact. -/
theorem map_extent_eq {laid : Section} (laidOut : laid.Clean table id)
    (bounded : laid.exactSize < 2 ^ 63) :
    laid.slots.map Slot.extent = laid.chunks.map fun chunk => chunk.exactLength * chunk.count := by
  rw [Section.slots, List.map_map]
  refine List.map_congr_left fun chunk member => ?_
  obtain ⟨index, chunkAt⟩ := List.mem_iff_getElem?.mp member
  change chunk.slot.length.toNat * chunk.count = _
  rcases Nat.eq_zero_or_pos chunk.count with none | repeated
  · rw [none, Nat.mul_zero, Nat.mul_zero]
  · rw [(laidOut.toNat_length bounded chunkAt repeated).1]

/-- The forms of a laid out section are valid. -/
theorem valid_forms {laid : Section} (laidOut : laid.Clean table id)
    (bounded : laid.exactSize < 2 ^ 63)
    (small : ∀ chunk ∈ laid.chunks, ∀ jump, chunk.body.openBranch? = some jump →
      jump.exactLength false + 128 < 2 ^ 63) : laid.Valid id laid.forms := by
  intro index chunk jump target chunkAt opened plain short
  obtain ⟨isBranch, auto, _⟩ := Body.openBranch?_eq_some.mp opened
  have limit := small chunk (List.mem_of_getElem? chunkAt) jump opened
  have exactShort := Branch.toNat_shortLength limit
  have isShort : chunk.slot.near = false := by simpa [Section.forms, chunkAt] using short
  have length : chunk.slot.length.toNat = jump.exactLength false := by
    rw [laidOut.branch_length chunkAt isBranch, isShort]
    exact exactShort
  obtain ⟨distance, sees, above, within⟩ :=
    short_window laidOut bounded chunkAt isBranch auto isShort (by omega)
  obtain ⟨inside, value⟩ := Relaxation.distance_eq_some_iff.mp sees
  obtain ⟨origin⟩ := laidOut.origin chunkAt
  have unsymbolic : jump.target.symbol = none := by
    cases symbol : jump.target.symbol with
    | none => rfl
    | some _ => simp [Field.isDistanceIn, Field.positions, symbol] at inside
  have positions : jump.target.positions =
      some [(1, ⟨id, target, 0⟩), (-1, ⟨id, index, 0⟩)] := by
    simp [Field.positions, unsymbolic, plain, (origin.branch_target isBranch).1, Expr.ofLocation]
  have constant : jump.target.expr.constant = 0 := by
    rw [plain]
    rfl
  have extents : (laid.relaxed id).slots.map Slot.extent = laid.extentsIn laid.forms := by
    rw [extentsIn_forms]
    exact map_extent_eq laidOut bounded
  have counted : ∀ slot ∈ (laid.relaxed id).slots, 0 ≤ slot.copies.toInt := by
    intro slot member
    obtain ⟨other, otherMember, rfl⟩ := List.mem_map.mp member
    obtain ⟨place, otherAt⟩ := List.mem_iff_getElem?.mp otherMember
    exact laidOut.copies_nonneg otherAt
  have total : (laid.extentsIn laid.forms).sum = laid.exactSize := by
    rw [extentsIn_forms]
    rfl
  have offset := (laidOut.orderly.contiguous rfl).toNat_offsetAmong counted
    (by rw [extents, total]; simpa using bounded.trans (by decide)) id
  rw [Relaxation.exactValue_of_positions positions constant, offset, offset, extents] at value
  have extent : chunk.extent = jump.exactLength false * chunk.count := by
    rw [Chunk.extent, length]
  rw [extent] at above
  simp only [gap, UInt64.toNat_zero] at value ⊢
  omega

/-- The forms that layout chooses in an elementary section are the least valid ones: they are valid,
at the offsets that layout assigned, and a branch that layout makes near is near in every valid
choice. -/
theorem layout_forms_least {maxPasses : Int} {layout : Layout}
    (success : sect.layout table maxPasses id = .ok layout) (silent : layout.error = none)
    (elementary : ∀ (index : Nat) (chunk : Chunk), sect.chunks[index]? = some chunk →
      chunk.Elementary table id index)
    (bounded : layout.sect.exactSize < 2 ^ 63) :
    layout.sect.Valid id layout.sect.forms ∧
      (∀ (index : Nat) (chunk : Chunk), layout.sect.chunks[index]? = some chunk →
        chunk.slot.offset.toNat = ((layout.sect.extentsIn layout.sect.forms).take index).sum) ∧
      ∀ choice, layout.sect.Valid id choice →
        ∀ (index : Nat) (chunk : Chunk), layout.sect.chunks[index]? = some chunk →
          chunk.body.openBranch?.isSome = true → layout.sect.forms index = true →
            choice index = true := by
  have laidOut := clean_layout success silent
  obtain ⟨prepared, prepares, rfl⟩ := layout_eq_ok_iff.mp success
  have clean := recorded_error_eq_none_iff.mp silent
  obtain ⟨orderly, _, frame⟩ := settle_of_clean prepares clean
  have reached := Relaxation.reaches_settle (prepared.relaxation id) maxPasses
  have unproblematic : prepared.problems = [] :=
    List.prefix_nil.mp (clean ▸ frame.problems)
  have starts : (prepared.relaxation id).assignOffsets.Orderly :=
    Relaxation.orderly_assignOffsets (coherent_relaxation prepares)
      (fun _ => kept_prepareAll prepares) (sound_prepareAll prepares)
  generalize (prepared.relaxation id).settle maxPasses = relaxed at *
  have slots : (sect.recorded prepared relaxed).sect.slots = relaxed.slots :=
    slots_recorded (by rw [frame.length, Prepared.relaxation, List.length_map])
  have opens := @exists_span_of_openBranch _ _ _ _ _ prepares unproblematic frame elementary
  have lengthening : (sect.recorded prepared relaxed).sect.Lengthening := by
    intro chunk member jump opened
    obtain ⟨index, chunkAt⟩ := List.mem_iff_getElem?.mp member
    exact (opens chunkAt opened).1
  have valid : (sect.recorded prepared relaxed).sect.Valid id
      (sect.recorded prepared relaxed).sect.forms := by
    refine valid_forms laidOut bounded fun chunk member jump opened => ?_
    obtain ⟨index, chunkAt⟩ := List.mem_iff_getElem?.mp member
    exact (opens chunkAt opened).2.1
  refine ⟨valid, ?_, ?_⟩
  · intro index chunk chunkAt
    rw [laidOut.toNat_offset bounded chunkAt, extentsIn_forms, ← map_extent_eq laidOut bounded,
      Section.slots, List.map_map, ← List.map_take]
    rfl
  · intro choice chosen index chunk chunkAt opened near
    obtain ⟨jump, opened⟩ := Option.isSome_iff_exists.mp opened
    -- Below the choice there is one that gives no longer chunks than layout did.
    have below : ((sect.recorded prepared relaxed).sect.extentsIn fun index =>
        choice index && (sect.recorded prepared relaxed).sect.forms index).sum < 2 ^ 63 := by
      refine Nat.lt_of_le_of_lt (List.Forall₂.sum_le_sum (Section.extentsIn_mono lengthening
        fun place both => (Bool.and_eq_true_iff.mp both).2)) ?_
      rw [extentsIn_forms]
      exact bounded
    have ceiling := ceiling_of_valid prepares unproblematic frame elementary laidOut
      (chosen.meet lengthening valid) below
    have retired := ceiling.retired starts reached clean
    obtain ⟨_, _, span, member, here, purpose⟩ := opens chunkAt opened
    have images : span.registered ∈ relaxed.spans.map Span.registered :=
      frame.spans ▸ List.mem_map_of_mem member
    obtain ⟨final, finalMember, same⟩ := List.mem_map.mp images
    obtain ⟨sameIndex, samePurpose, _⟩ := Span.agree_of_registered same
    obtain ⟨slot, slotAt, _, _, holds⟩ := orderly.coherent.watched final finalMember
    have nearSlot : slot.near = true := by
      rw [sameIndex, here, ← slots, Section.slots, List.getElem?_map, chunkAt, Option.map_some,
        Option.some.injEq] at slotAt
      rw [← slotAt]
      simpa [Section.forms, chunkAt] using near
    cases known : final.state with
    | failed => exact absurd known (orderly.kept clean final finalMember)
    | active =>
      simp [Span.Holds, known, samePurpose, purpose, nearSlot] at holds
    | retired =>
      have both := retired final finalMember known
      rw [sameIndex, here] at both
      exact (Bool.and_eq_true_iff.mp both).1

end

/-- Two labels of a section, before its chunks 3 and 4. -/
def cascadeLabels : SymbolTable where
  symbols :=
    [{ name := "middle", meaning := .label ⟨0, 3, 0⟩ },
      { name := "end", meaning := .label ⟨0, 4, 0⟩ }]

/-- A jump to a symbol. -/
def symbolJump (symbol : SymbolId) : Branch := Machine.jmp (.ofSymbol symbol)

/-- A jump that reaches its target only over a short form of the second jump, which itself has to be
near, and a jump that stays short. -/
def cascade : Section where
  name := ".text"
  chunks :=
    [{ body := .branch (symbolJump 1) },
      { body := .reserve (.ofInt 125) 1 },
      { body := .branch (symbolJump 2) },
      { body := .reserve (.ofInt 200) 1 },
      { body := .branch (symbolJump 2), repeats := some (.ofInt 2) }]

/-- In every valid choice of forms, the first two jumps are near, as in the one that layout
makes. -/
theorem cascade_forms_least :
    ∃ layout, cascade.layout cascadeLabels 0 0 = .ok layout ∧ layout.error = none ∧
      layout.sect.forms 0 = true ∧ layout.sect.forms 2 = true ∧ layout.sect.forms 4 = false ∧
      layout.sect.Valid 0 layout.sect.forms ∧
      ∀ choice, layout.sect.Valid 0 choice → choice 0 = true ∧ choice 2 = true := by
  obtain ⟨layout, success, silent, bounded, first, second, last, opens⟩ := exists_ok_of_any
    (p := fun layout => layout.error = none ∧ layout.sect.exactSize < 1000 ∧
      layout.sect.forms 0 = true ∧ layout.sect.forms 2 = true ∧ layout.sect.forms 4 = false ∧
      ∀ index ∈ [0, 2], (layout.sect.chunks[index]?.any fun chunk =>
        chunk.body.openBranch?.isSome) = true)
    (cascade.layout cascadeLabels 0 0) (by decide +kernel)
  have elementary : ∀ (index : Nat) (chunk : Chunk), cascade.chunks[index]? = some chunk →
      chunk.Elementary cascadeLabels 0 index := by
    have jumping : ∀ (symbol : SymbolId) (target index : Nat) (repeats : Option Expr),
        (symbolJump symbol).target.settle cascadeLabels ⟨0, index, 0⟩ =
          .ok { expr := .ofLocation ⟨0, target, 0⟩, width := 32, settled := true } →
        (∀ count, repeats = some count → count = .ofInt 2) →
        ({ body := .branch (symbolJump symbol), repeats } : Chunk).Elementary cascadeLabels 0
          index := by
      intro symbol target index repeats settles twice
      have short : (symbolJump symbol).exactLength false = 2 := by
        simp [symbolJump, Machine.jmp, Machine.branch, Branch.exactLength, Branch.opcode,
          Branch.width]
      have near : (symbolJump symbol).exactLength true = 5 := by
        simp [symbolJump, Machine.jmp, Machine.branch, Branch.exactLength, Branch.opcode,
          Branch.width]
      refine ⟨by simp [Chunk.kind, Body.kind, Kind.role], fun count counted => ?_,
        fun jump opened => ?_, fun jump opened => ?_⟩
      · rw [twice count counted]
        exact ⟨.ofInt 2, by decide +kernel, rfl, fun _ => by decide⟩
      · obtain rfl := (Body.branch.inj (Body.openBranch?_eq_some.mp opened).1)
        rw [short, near]
        decide
      · obtain rfl := (Body.branch.inj (Body.openBranch?_eq_some.mp opened).1)
        exact ⟨target, _, settles, rfl, rfl⟩
    have reserved : ∀ size index,
        ({ body := .reserve (.ofInt size) 1 } : Chunk).Elementary cascadeLabels 0 index := by
      intro size index
      exact ⟨by simp [Chunk.kind, Body.kind, Kind.role], by simp, by simp [Body.openBranch?],
        by simp [Body.openBranch?]⟩
    intro index chunk chunkAt
    rcases index with _ | _ | _ | _ | _ | index
    all_goals simp only [cascade, List.getElem?_cons_zero, List.getElem?_cons_succ,
      List.getElem?_nil, reduceCtorEq, Option.some.injEq] at chunkAt
    all_goals subst chunkAt
    · exact jumping 1 3 0 none (by decide +kernel) (by simp)
    · exact reserved _ _
    · exact jumping 2 4 2 none (by decide +kernel) (by simp)
    · exact reserved _ _
    · exact jumping 2 4 4 (some (.ofInt 2)) (by decide +kernel) (by simp)
  obtain ⟨valid, _, least⟩ :=
    layout_forms_least success silent elementary (bounded.trans (by decide))
  have near : ∀ choice, layout.sect.Valid 0 choice → ∀ index ∈ [0, 2],
      layout.sect.forms index = true → choice index = true := by
    intro choice chosen index among isNear
    obtain ⟨chunk, chunkAt, opened⟩ := (Option.any_eq_true _ _).mp (opens index among)
    exact least choice chosen index chunk chunkAt opened isNear
  exact ⟨layout, success, silent, first, second, last, valid, fun choice chosen =>
    ⟨near choice chosen 0 (by decide) first, near choice chosen 2 (by decide) second⟩⟩

end Assembler
