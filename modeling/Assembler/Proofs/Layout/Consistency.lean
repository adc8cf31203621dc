import Assembler.Machine.Encoding
import Assembler.Proofs.Layout.Clean

/-!
# Consistent layouts

A layout without an error satisfies all its constraints at once, at its final offsets: no span
fires, repeat counts are the distances they measure, padding has the length of its rule, and
integers have room for their values. There is one exception. The distance that stands in for one
that cannot be computed is itself a distance, so a span that has seen it does not notice when its
distance leaves the signed words. `layoutSection_consistent_iff` says that nothing else can go
wrong, and `strayCount_inconsistent` that this can.
-/

namespace Assembler

variable {span : Span}

/-- Nothing moves any more: no span fires, and padding has the length of its rule. -/
structure Section.Steady (sect : Section) (table : SymbolTable) (id : Nat) : Prop where
  /-- No span that is watched fires. -/
  quiet : ∀ span ∈ sect.spans, (sect.relaxed id).isPending span = false
  /-- An alignment is as long as its rule says at its offset. -/
  align : ∀ chunk ∈ sect.chunks, ∀ padding, chunk.body = .align padding →
    ∃ setter, padding.setter table = .ok setter ∧
      setter.pad chunk.slot.offset = .ok chunk.slot.length
  /-- Padding up to an offset ends there. -/
  org : ∀ chunk ∈ sect.chunks, ∀ padding, chunk.body = .org padding →
    ∃ start, table.naturalWord .origin padding.start = .ok start ∧
      chunk.slot.offset.toNat + chunk.slot.length.toNat = start.toNat

/-- All constraints of a section hold at its offsets. -/
structure Section.Consistent (sect : Section) (table : SymbolTable) (id : Nat) : Prop
    extends sect.Steady table id where
  /-- A repeat count that is no constant is the distance that it measures. -/
  copies : ∀ chunk ∈ sect.chunks, ∀ count, chunk.repeats = some count →
    ∃ expanded, table.expand count = .ok expanded ∧
      (expanded.isConstant = false →
        (sect.relaxed id).distance { expr := expanded } = some chunk.slot.copies)
  /-- An integer that is no constant has room for its value. -/
  leb128 : ∀ chunk ∈ sect.chunks, ∀ integer, chunk.body = .leb128 integer →
    integer.value.isConstant = false →
      ∃ value, (sect.relaxed id).distance integer.value = some value ∧
        Leb128.size value.toInt integer.signed ≤ chunk.slot.length.toNat

/-- Every distance that decides on a number of copies or on the length of an integer is a signed
word at the offsets of the section. -/
def Section.Measurable (sect : Section) (id : Nat) : Prop :=
  ∀ span ∈ sect.spans, span.purpose.policy = .anyChange →
    isWord ((sect.relaxed id).exactValue span.field) = true
deriving Decidable

/-- The bytes up to an origin end there. -/
theorem Setter.pad_origin {start offset length : UInt64}
    (padded : (Setter.origin start).pad offset = .ok length) :
    offset.toNat + length.toNat = start.toNat := by
  simp only [Setter.pad] at padded
  split at padded
  · cases padded
  · next reached =>
    have ahead := UInt64.not_lt.mp reached
    have inOrder := UInt64.le_iff_toNat_le.mp ahead
    rw [Except.ok.injEq] at padded
    rw [← padded, UInt64.toNat_sub_of_le _ _ ahead]
    omega

namespace Origin

variable {table : SymbolTable} {id index : Nat} {sect : Section} {chunk : Chunk}

variable (origin : Origin table id index sect chunk)
include origin

/-- The rule of an alignment is found from its expressions. -/
theorem align {padding : Align} (isAlign : chunk.body = .align padding) :
    ∃ setter, origin.measure.setter = some setter ∧ padding.setter table = .ok setter := by
  have measured := origin.measured
  rw [origin.body_eq (by simp [isAlign, Body.kind]), isAlign] at measured
  generalize origin.measure = measure at measured ⊢
  cases measured with
  | align rule => exact ⟨_, rfl, rule⟩

/-- The rule of an origin is found from its expression. -/
theorem org {padding : Org} (isOrg : chunk.body = .org padding) :
    ∃ start, origin.measure.setter = some (.origin start) ∧
      table.naturalWord .origin padding.start = .ok start := by
  have measured := origin.measured
  rw [origin.body_eq (by simp [isOrg, Body.kind]), isOrg] at measured
  generalize origin.measure = measure at measured ⊢
  cases measured with
  | org found => exact ⟨_, rfl, found⟩

/-- The span of an integer that is no constant. -/
theorem leb128_span {integer : VariableInteger} (isInteger : chunk.body = .leb128 integer)
    (unknown : integer.value.isConstant = false) :
    origin.measure.span =
      some { index, purpose := .leb128 integer.signed, field := integer.value } := by
  have measured := origin.measured
  rw [origin.body_eq (by simp [isInteger, Body.kind]), isInteger] at measured
  generalize origin.measure = measure at measured ⊢
  cases measured with
  | constant known => simp [known] at unknown
  | deferred => rfl

/-- The span of a body that fires at any change is the one of an integer. -/
theorem leb128_of_span (registered : origin.measure.span = some span)
    (anyChange : span.purpose.policy = .anyChange) :
    ∃ integer, chunk.body = .leb128 integer ∧ integer.value.isConstant = false ∧
      span.field = integer.value := by
  have same : chunk.body = origin.measure.body := congrArg Chunk.body origin.recorded
  have measured := origin.measured
  rw [same]
  generalize origin.body = body at measured
  generalize origin.measure = measure at measured registered ⊢
  cases measured with
  | deferred unknown =>
    rw [Option.some.injEq] at registered
    exact ⟨_, rfl, unknown, by rw [← registered]⟩
  | branch chosen =>
    obtain ⟨_, _, _, _, near | ⟨_, _, _, fixed | ⟨_, _, open_⟩⟩⟩ := Branch.measure_ok chosen
    · rw [near.2.2] at registered
      cases registered
    · rw [fixed.2] at registered
      cases registered
    · rw [open_, Option.some.injEq] at registered
      simp [← registered, Purpose.policy] at anyChange
  | data | constant | reserve | binary | align | org | instruction => cases registered

end Origin

namespace Section.Clean

variable {sect : Section} {table : SymbolTable} {id index : Nat} {chunk : Chunk}

variable (clean : sect.Clean table id)
include clean

section

variable (member : span ∈ sect.spans)
include member

/-- The chunk of a span keeps the span's promise. -/
theorem holds (chunkAt : sect.chunks[span.index]? = some chunk) :
    span.Holds id chunk.slot := by
  obtain ⟨slot, slotAt, _, _, holds⟩ := clean.orderly.coherent.watched span member
  simp only [Section.relaxed, Section.slots, List.getElem?_map, chunkAt, Option.map_some,
    Option.some.injEq] at slotAt
  exact slotAt ▸ holds

variable (anyChange : span.purpose.policy = .anyChange)
include anyChange

/-- A span that fires at any change is watched to the end. -/
theorem active :
    span.state = .active := by
  have kept := clean.orderly.kept rfl span member
  obtain ⟨slot, _, _, _, holds⟩ := clean.orderly.coherent.watched span member
  cases state : span.state with
  | active => rfl
  | failed => exact absurd state kept
  | retired =>
    unfold Span.Holds at holds
    cases purpose : span.purpose <;> simp [state, purpose, Purpose.policy] at holds anyChange

/-- The distance that such a span has seen last is the one that it would see now. -/
theorem seen_eq :
    ((sect.relaxed id).distance span.field).getD unknownDistance = span.seen := by
  have active := clean.active member anyChange
  simpa [Relaxation.isPending, active, Span.fires, anyChange] using clean.quiet span member

/-- Such a span watches a distance inside the section. -/
theorem isDistanceIn :
    span.field.isDistanceIn id = true := by
  have active := clean.active member anyChange
  have same := clean.seen_eq member anyChange
  have traced : span.Traced id := by
    obtain ⟨slot, _, _, _, holds⟩ := clean.orderly.coherent.watched span member
    unfold Span.Holds at holds
    cases purpose : span.purpose with
    | copies | leb128 => simp only [active, purpose] at holds; exact holds.1
    | branch nearLength => simp [purpose, Purpose.policy] at anyChange
  cases found : (sect.relaxed id).distance span.field with
  | some value => exact (Relaxation.distance_eq_some_iff.mp found).1
  | none =>
    -- It has seen what stands in for an unknown distance, so it has fired before.
    rw [found, Option.getD_none] at same
    rcases traced with zero | inside
    · rw [zero] at same
      cases same
    · exact inside

/-- The distance that such a span has seen last is its distance, if that is a signed word. -/
theorem distance_eq_seen (word : isWord ((sect.relaxed id).exactValue span.field) = true) :
    (sect.relaxed id).distance span.field = some span.seen := by
  have known := (Relaxation.distance_isSome_iff (clean.isDistanceIn member anyChange)).mpr word
  obtain ⟨value, found⟩ := Option.isSome_iff_exists.mp known
  rw [found, ← clean.seen_eq member anyChange, found, Option.getD_some]

end

/-- A slot that has a rule has the length of the rule. -/
theorem pad (chunkAt : sect.chunks[index]? = some chunk)
    (origin : Origin table id index sect chunk) {setter : Setter}
    (rule : origin.measure.setter = some setter) :
    setter.pad chunk.slot.offset = .ok chunk.slot.length := by
  have member : chunk.slot ∈ (sect.relaxed id).slots :=
    List.mem_map_of_mem (List.mem_of_getElem? chunkAt)
  exact (clean.orderly.contiguous rfl).pad member (clean.orderly.sound rfl _ member)
    (origin.evolves.setter.trans rule)

/-- Nothing moves any more in a section that was laid out without an error. -/
theorem steady : sect.Steady table id where
  quiet := clean.quiet
  align := by
    intro chunk member padding isAlign
    obtain ⟨index, chunkAt⟩ := List.mem_iff_getElem?.mp member
    obtain ⟨origin⟩ := clean.origin chunkAt
    obtain ⟨setter, rule, found⟩ := origin.align isAlign
    exact ⟨setter, found, clean.pad chunkAt origin rule⟩
  org := by
    intro chunk member padding isOrg
    obtain ⟨index, chunkAt⟩ := List.mem_iff_getElem?.mp member
    obtain ⟨origin⟩ := clean.origin chunkAt
    obtain ⟨start, rule, found⟩ := origin.org isOrg
    exact ⟨start, found, Setter.pad_origin (clean.pad chunkAt origin rule)⟩

/-- A span that preparing registered still watches the chunk at the end. -/
theorem watcher (chunkAt : sect.chunks[index]? = some chunk)
    (origin : Origin table id index sect chunk) {original : Span}
    (member : original ∈ origin.countSpan.toList ++ origin.measure.span.toList)
    (here : original.index = index) :
    ∃ final ∈ sect.spans, final.Holds id chunk.slot ∧ final.purpose = original.purpose ∧
      final.field = original.field ∧ final.low = original.low ∧ final.high = original.high := by
  obtain ⟨final, finalMember, same⟩ := origin.watched original member
  obtain ⟨sameIndex, agree⟩ := Span.agree_of_registered same
  exact ⟨final, finalMember, clean.holds finalMember (sameIndex ▸ here ▸ chunkAt), agree⟩

/-- A span that fires at any change, as the layout left it: its chunk keeps its promise, and the
distance that it has seen is its distance as long as that is a signed word. -/
theorem seen_of_origin (measurable : sect.Measurable id)
    (chunkAt : sect.chunks[index]? = some chunk) (origin : Origin table id index sect chunk)
    {original : Span} (member : original ∈ origin.countSpan.toList ++ origin.measure.span.toList)
    (here : original.index = index) (anyChange : original.purpose.policy = .anyChange) :
    ∃ final : Span, final.purpose = original.purpose ∧ final.state = .active ∧
      final.Holds id chunk.slot ∧
      (sect.relaxed id).distance original.field = some final.seen := by
  obtain ⟨final, finalMember, holds, samePurpose, sameField, _⟩ :=
    clean.watcher chunkAt origin member here
  have policy : final.purpose.policy = .anyChange := samePurpose ▸ anyChange
  refine ⟨final, samePurpose, clean.active finalMember policy, holds, ?_⟩
  rw [← sameField]
  exact clean.distance_eq_seen finalMember policy (measurable final finalMember policy)

/-- Where distances can be measured, a section that was laid out without an error is consistent. -/
theorem consistent (measurable : sect.Measurable id) :
    sect.Consistent table id where
  toSteady := clean.steady
  copies := by
    intro chunk member count repeated
    obtain ⟨index, chunkAt⟩ := List.mem_iff_getElem?.mp member
    obtain ⟨origin⟩ := clean.origin chunkAt
    rcases initialCopies_ok origin.counted with
      ⟨absent, _⟩ | ⟨other, expanded, found, _, expands, copies⟩
    · rw [origin.repeats_eq, repeated] at absent
      cases absent
    · rw [origin.repeats_eq, repeated, Option.some.injEq] at found
      subst found
      refine ⟨expanded, expands, fun unknown => ?_⟩
      rcases copies with ⟨constant, _⟩ | ⟨_, _, _, _, registered⟩
      · simp [constant] at unknown
      · obtain ⟨final, purpose, active, holds, distance⟩ :=
          clean.seen_of_origin measurable chunkAt origin
            (List.mem_append_left _ (Option.mem_toList.mpr registered)) rfl rfl
        simp only [Span.Holds, active, purpose] at holds
        rw [holds.2.1]
        exact distance
  leb128 := by
    intro chunk member integer isInteger unknown
    obtain ⟨index, chunkAt⟩ := List.mem_iff_getElem?.mp member
    obtain ⟨origin⟩ := clean.origin chunkAt
    have registered := origin.leb128_span isInteger unknown
    obtain ⟨final, purpose, active, holds, distance⟩ :=
      clean.seen_of_origin measurable chunkAt origin
        (List.mem_append_right _ (Option.mem_toList.mpr registered)) rfl rfl
    simp only [Span.Holds, active, purpose] at holds
    exact ⟨final.seen, distance, holds.2⟩

/-- In a consistent section that was laid out without an error, distances can be measured. -/
theorem measurable (consistent : sect.Consistent table id) :
    sect.Measurable id := by
  intro span member anyChange
  obtain ⟨chunk, chunkAt, origin, original, originalMember, same⟩ := clean.registered span member
  obtain ⟨_, samePurpose, sameField, _⟩ := Span.agree_of_registered same
  have measured : ∃ value, (sect.relaxed id).distance span.field = some value := by
    have chunkMember := List.mem_of_getElem? chunkAt
    rw [← sameField]
    rcases List.mem_append.mp originalMember with count | form
    · have counted := origin.counted
      rw [Option.mem_toList.mp count] at counted
      rcases initialCopies_ok counted with
        ⟨_, _, absent⟩ | ⟨repeats, expanded, found, _, expands, copies⟩
      · cases absent
      · rcases copies with ⟨_, _, _, _, absent⟩ | ⟨unknown, _, _, _, registered⟩
        · cases absent
        · obtain ⟨other, otherExpands, counts⟩ :=
            consistent.copies chunk chunkMember repeats (origin.repeats_eq ▸ found)
          rw [expands, Except.ok.injEq] at otherExpands
          subst otherExpands
          rw [Option.some.injEq] at registered
          subst registered
          exact ⟨_, counts unknown⟩
    · obtain ⟨integer, isInteger, unknown, field⟩ :=
        origin.leb128_of_span (Option.mem_toList.mp form) (samePurpose ▸ anyChange)
      obtain ⟨value, distance, _⟩ :=
        consistent.leb128 chunk chunkMember integer isInteger unknown
      exact ⟨value, field ▸ distance⟩
  obtain ⟨value, distance⟩ := measured
  rw [(Relaxation.distance_eq_some_iff.mp distance).2]
  exact isWord_toInt value

end Section.Clean

/-- The section that laying it out leaves in an object. -/
theorem layoutSection_ok {object laid : Object} {layout : Layout} {id : Nat}
    (success : object.layoutSection id = .ok (laid, layout)) :
    ∃ sect, object.sections[id]? = some sect ∧
      sect.layout object.table object.maxPasses id = .ok layout ∧
      laid.sections[id]? = some layout.sect ∧ laid.table = object.table := by
  unfold Object.layoutSection at success
  cases found : object.sections[id]? with
  | none => simp [Object.getSection, found, bind, Except.bind] at success
  | some sect =>
    cases result : sect.layout object.table object.maxPasses id with
    | error reference => simp [Object.getSection, found, result, bind, Except.bind] at success
    | ok other =>
      simp only [Object.getSection, found, result, bind, Except.bind, pure, Except.pure,
        Except.ok.injEq, Prod.mk.injEq] at success
      obtain ⟨rfl, rfl⟩ := success
      have inRange := (List.getElem?_eq_some_iff.mp found).1
      exact ⟨sect, rfl, result, List.getElem?_set_self inRange, rfl⟩

/-- A section of an object that was laid out without an error is steady, and it is consistent
exactly if the distances that decide on repeat counts and on integers are signed words. -/
theorem layoutSection_consistent_iff {object laid : Object} {layout : Layout} {id : Nat}
    (success : object.layoutSection id = .ok (laid, layout)) (silent : layout.error = none) :
    ∃ sect, laid.sections[id]? = some sect ∧ sect.Steady laid.table id ∧
      (sect.Consistent laid.table id ↔ sect.Measurable id) := by
  obtain ⟨source, _, laidOut, found, table⟩ := layoutSection_ok success
  have clean : layout.sect.Clean laid.table id := by
    rw [table]
    exact clean_layout laidOut silent
  exact ⟨layout.sect, found, clean.steady, clean.measurable, clean.consistent⟩

/-- A repeat count that is the largest signed word as long as a branch has two bytes, and more once
the branch has grown to five. -/
def strayCount : Object where
  sections :=
    [{ name := ".text"
       chunks :=
        [{ body := .data []
           repeats := some
            { constant := 9223372036854775805
              terms := [⟨-1, .place ⟨0, 1, 0⟩⟩, ⟨1, .place ⟨0, 2, 0⟩⟩] } },
          { body := .branch
              (Machine.jmp { constant := 1000, terms := [⟨1, .place ⟨0, 1, 0⟩⟩] }) }] }]

/-- A repeat count that measures the bytes between two labels, an integer that spells the same
distance, an alignment and padding up to an offset. -/
def measuredCount : Object where
  sections :=
    [{ name := ".text"
       chunks :=
        [{ body := .data [.bytes [1]]
           repeats := some { terms := [⟨-1, .place ⟨0, 1, 0⟩⟩, ⟨1, .place ⟨0, 2, 0⟩⟩] } },
          { body := .reserve (.ofInt 200) 1 },
          { body := .leb128
              { number := { terms := [⟨-1, .place ⟨0, 1, 0⟩⟩, ⟨1, .place ⟨0, 2, 0⟩⟩] }
                signed := false } },
          { body := .align { boundary := .ofInt 16 } },
          { body := .org { start := .ofInt 512 } }] }]

/-- The layout of the one is consistent, and the layout of the other is not, though neither reports
an error. -/
theorem strayCount_inconsistent :
    (∃ laid layout sect, measuredCount.layoutSection 0 = .ok (laid, layout) ∧ layout.error = none ∧
      laid.sections[0]? = some sect ∧ sect.Consistent laid.table 0) ∧
    ∃ laid layout sect, strayCount.layoutSection 0 = .ok (laid, layout) ∧ layout.error = none ∧
      laid.sections[0]? = some sect ∧ ¬ sect.Consistent laid.table 0 := by
  constructor
  · obtain ⟨⟨laid, layout⟩, success, silent, measurable⟩ :=
      exists_ok_of_any (measuredCount.layoutSection 0)
        (p := fun result => result.2.error = none ∧
          ∀ sect ∈ result.1.sections[0]?, sect.Measurable 0) (by decide +kernel)
    obtain ⟨sect, found, _, consistent⟩ := layoutSection_consistent_iff success silent
    exact ⟨laid, layout, sect, success, silent, found, consistent.mpr (measurable sect found)⟩
  · obtain ⟨⟨laid, layout⟩, success, silent, immeasurable⟩ :=
      exists_ok_of_any (strayCount.layoutSection 0)
        (p := fun result => result.2.error = none ∧
          ∀ sect ∈ result.1.sections[0]?, ¬ sect.Measurable 0) (by decide +kernel)
    obtain ⟨sect, found, _, consistent⟩ := layoutSection_consistent_iff success silent
    exact ⟨laid, layout, sect, success, silent, found,
      fun holds => immeasurable sect found (consistent.mp holds)⟩

end Assembler
