import Assembler.Proofs.Emission.Sites

/-!
# Emissions side by side

Two emissions of one section go through the same fields, integers and copies. What relates them
field by field relates them as a whole, if it is a congruence: kept when emissions are put one
behind another, and when reports are added (`Emission.Congruence`). The objects and the outputs may
differ, and the relation may depend on the fields that were emitted.
-/

namespace Assembler

/-- Two computations end alike: with results that are related, or with the same error. -/
inductive Parallel {ε α β : Type} (related : α → β → Prop) : Except ε α → Except ε β → Prop
  | ok {left : α} {right : β} : related left right → Parallel related (.ok left) (.ok right)
  | error (reference : ε) : Parallel related (.error reference) (.error reference)

namespace Parallel

variable {ε α β γ δ : Type} {related : α → β → Prop} {first : Except ε α} {second : Except ε β}

/-- Two computations run in parallel step by step. -/
theorem bind {later : γ → δ → Prop} {next : α → Except ε γ} {another : β → Except ε δ}
    (parallel : Parallel related first second)
    (continues : ∀ left right, related left right → Parallel later (next left) (another right)) :
    Parallel later (first >>= next) (second >>= another) := by
  cases parallel with
  | ok holds => exact continues _ _ holds
  | error reference => exact .error reference

/-- Computations with related results are equal, if related means equal. -/
theorem eq {related : α → α → Prop} {second : Except ε α} (parallel : Parallel related first second)
    (same : ∀ {left right}, related left right → left = right) : first = second := by
  cases parallel with
  | ok holds => rw [same holds]
  | error => rfl

/-- Equal computations are parallel. -/
theorem of_eq {related : α → α → Prop} {second : Except ε α} (equal : first = second)
    (refl : ∀ value, first = .ok value → related value value) : Parallel related first second := by
  subst equal
  cases first with
  | ok value => exact .ok (refl value rfl)
  | error reference => exact .error reference

end Parallel

/-- A relation between emissions of fields that have the same bytes. It is kept by what puts
emissions together, and says nothing about the fields behind a report that stops the output. -/
structure Emission.Congruence (related : List FieldSite → Emission → Emission → Prop) : Prop where
  bytes : ∀ {sites left right}, related sites left right → left.bytes = right.bytes
  plain : ∀ bytes diagnostics, related [] { bytes, diagnostics } { bytes, diagnostics }
  append : ∀ {sites later left right first second}, related sites left right →
    related later first second → related (sites ++ later) (left.append first) (right.append second)
  emptied : ∀ {sites left right}, related sites left right →
    related sites { left with bytes := [] } { right with bytes := [] }
  report : ∀ {sites left right}, related sites left right → ∀ more,
    related sites { left with diagnostics := left.diagnostics ++ more }
      { right with diagnostics := right.diagnostics ++ more }
  stop : ∀ {sites left right}, related sites left right → ∀ later diagnostic,
    diagnostic.severity.isError = true →
      related (sites ++ later) { left with diagnostics := left.diagnostics ++ [diagnostic] }
        { right with diagnostics := right.diagnostics ++ [diagnostic] }

/-- Equality of emissions is a congruence. -/
theorem Emission.Congruence.eq : Emission.Congruence fun _ => Eq where
  bytes same := by rw [same]
  plain _ _ := rfl
  append same others := by rw [same, others]
  emptied same := by rw [same]
  report same _ := by rw [same]
  stop same _ _ _ := by rw [same]

/-- Emissions of copies are related, and break the same promise of the layout if they break one. -/
def Emission.Promised (related : Emission → Emission → Prop)
    (left right : Emission × Option Error) : Prop :=
  related left.1 right.1 ∧ left.2 = right.2

/-- The sites of fields in one copy. -/
def CopySite.sitesIn (copy : CopySite) (fields : List (UInt64 × Field)) : List FieldSite :=
  fields.map fun entry => ⟨copy, entry.1, entry.2⟩

namespace Object

/-- The fields of a copy with their offsets are emitted alike from two objects. -/
def FieldsParallel (related : List FieldSite → Emission → Emission → Prop) (object other : Object)
    (output another : Output) (copy : CopySite) (fields : List (UInt64 × Field)) : Prop :=
  ∀ entry ∈ fields, ∀ room, Parallel (related [⟨copy, entry.1, entry.2⟩])
    (object.emitField output copy entry.1 entry.2 room)
    (other.emitField another copy entry.1 entry.2 room)

variable {related : List FieldSite → Emission → Emission → Prop}
  (congruence : Emission.Congruence related) {object other : Object} {output another : Output}
  {copy : CopySite}

include congruence

/-- Data is emitted in parallel if its fields are. -/
theorem emitItems_parallel {items : List DataItem} {offset : UInt64}
    (fields : FieldsParallel related object other output another copy
      (DataItem.fieldsAt offset items)) :
    Parallel (related (copy.sitesIn (DataItem.fieldsAt offset items)))
      (object.emitItems output copy offset items) (other.emitItems another copy offset items) := by
  induction items generalizing offset with
  | nil => exact .ok (congruence.plain [] [])
  | cons item rest ih =>
    cases item with
    | bytes content =>
      exact (ih fields).bind fun _ _ later =>
        .ok (congruence.append (congruence.plain content []) later)
    | field inner =>
      obtain ⟨first, others⟩ := List.forall_mem_cons.mp fields
      exact (first _).bind fun _ _ here => (ih others).bind fun _ _ later =>
        .ok (congruence.append here later)

/-- Operands that are emitted alike leave the same encoding. -/
theorem emitOperands_parallel {operands : List Operand} {bytes : List UInt8}
    (fields : FieldsParallel related object other output another copy
      (operands.map fun operand => (operand.offset, operand.field))) :
    Parallel (related (copy.sitesIn (operands.map fun operand => (operand.offset, operand.field))))
      (object.emitOperands output copy bytes operands)
      (other.emitOperands another copy bytes operands) := by
  induction operands generalizing bytes with
  | nil => exact .ok (congruence.plain bytes [])
  | cons operand rest ih =>
    obtain ⟨first, others⟩ := List.forall_mem_cons.mp fields
    simp only [emitOperands]
    split
    · exact .error _
    · refine (first _).bind fun left right here => ?_
      rw [congruence.bytes here]
      exact (ih others).bind fun _ _ later =>
        .ok (congruence.append (congruence.emptied here) later)

/-- A copy is emitted alike if its fields are, and its integer has the same value. -/
theorem emitCopy_parallel
    (fields : FieldsParallel related object other output another copy copy.chunk.fieldsAt)
    (integers : ∀ integer ∈ copy.chunk.body.integer?,
      object.address integer.value.expr = other.address integer.value.expr ∧
        ∀ bytes diagnostics, related [⟨copy, 0, integer.value⟩] { bytes, diagnostics }
          { bytes, diagnostics }) :
    Parallel (Emission.Promised (related copy.sites)) (object.emitCopy output copy)
      (other.emitCopy another copy) := by
  have content : Parallel (Emission.Promised (related (copy.sitesIn copy.chunk.fieldsAt)))
      (object.emitContent output copy) (other.emitContent another copy) := by
    unfold emitContent
    unfold Chunk.fieldsAt at fields ⊢
    cases isBody : copy.chunk.body with
    | data items =>
      rw [isBody] at fields
      exact (emitItems_parallel congruence fields).bind fun _ _ here => .ok ⟨here, rfl⟩
    | leb128 integer =>
      obtain ⟨value, plain⟩ := integers integer (by rw [isBody]; rfl)
      simp only [emitInteger, value]
      refine (Parallel.of_eq rfl fun _ _ => rfl).bind fun amount _ same => ?_
      subst same
      split
      · exact .ok ⟨plain _ _, rfl⟩
      · exact .ok ⟨plain _ _, rfl⟩
    | instruction code =>
      rw [isBody] at fields
      exact (emitOperands_parallel congruence fields).bind fun _ _ here => .ok ⟨here, rfl⟩
    | branch jump =>
      rw [isBody] at fields
      have displacement := fields _ (List.mem_singleton.mpr rfl)
      exact ((displacement _).bind fun _ _ here =>
        .ok (congruence.append (congruence.plain _ []) here)).bind fun _ _ here => .ok ⟨here, rfl⟩
    | reserve | binary | align | org => exact .ok ⟨congruence.plain _ [], rfl⟩
  rw [emitCopy_eq, emitCopy_eq]
  refine content.bind ?_
  rintro ⟨left, problem⟩ ⟨right, _⟩ ⟨here, rfl⟩
  cases problem with
  | some problem => exact .ok ⟨here, rfl⟩
  | none =>
    dsimp only
    rw [congruence.bytes here]
    split
    · exact .ok ⟨here, rfl⟩
    · exact .ok ⟨here, rfl⟩

variable {sect second : Section} {id index : Nat}

/-- Copies that are emitted alike are emitted alike together. Of its section, a copy reads the name
only. -/
theorem emitCopies_parallel {chunk : Chunk} (name : sect.name = second.name)
    {remaining number : Nat}
    (copies : ∀ place < remaining,
      Parallel (Emission.Promised (related (sect.copySite id index chunk (number + place)).sites))
        (object.emitCopy output (sect.copySite id index chunk (number + place)))
        (other.emitCopy another (sect.copySite id index chunk (number + place)))) :
    Parallel (related (sect.copySites id index chunk remaining number))
      (object.emitCopies output sect id index chunk remaining number)
      (other.emitCopies another second id index chunk remaining number) := by
  induction remaining generalizing number with
  | zero => exact .ok (congruence.plain [] [])
  | succ remaining ih =>
    have first := copies 0 (Nat.succ_pos _)
    have rest := @ih (number + 1) fun place inRange => by
      have next := copies (place + 1) (Nat.succ_lt_succ inRange)
      rwa [← Nat.add_assoc, Nat.add_right_comm] at next
    rw [Nat.add_zero] at first
    simp only [emitCopies, ← name]
    refine first.bind ?_
    rintro ⟨left, problem⟩ ⟨right, _⟩ ⟨here, rfl⟩
    cases problem with
    | some problem => exact .ok (congruence.stop here _ _ rfl)
    | none => exact rest.bind fun _ _ later => .ok (congruence.append here later)

/-- A chunk is emitted alike, or not at all for the same reason. -/
theorem emitChunk_parallel (found : object.sections[id]? = some sect)
    (foundOther : other.sections[id]? = some second) (name : sect.name = second.name)
    (laidOut : sect.laidOut = second.laidOut) (chunks : sect.chunks = second.chunks)
    (copies : ∀ chunk ∈ sect.chunks[index]?, ∀ number < chunk.count,
      Parallel (Emission.Promised (related (sect.copySite id index chunk number).sites))
        (object.emitCopy output (sect.copySite id index chunk number))
        (other.emitCopy another (sect.copySite id index chunk number))) :
    Parallel (Parallel (related (sect.chunkSites id index))) (object.emitChunk output id index)
      (other.emitChunk another id index) := by
  simp only [emitChunk, getSection_natCast, found, foundOther, ← name, ← laidOut, ← chunks, bind,
    Except.bind, Section.chunkSites]
  cases chunkAt : sect.chunks[index]? with
  | none => exact .ok (.ok (congruence.plain [] []))
  | some chunk =>
    dsimp only
    split
    · exact .ok (.error _)
    · split
      · exact .ok (.error _)
      · exact (emitCopies_parallel congruence name fun place inRange => by
          rw [Nat.zero_add]
          exact copies chunk chunkAt place inRange).bind fun _ _ here => .ok (.ok here)

/-- Chunks that are emitted alike are emitted alike together, if nothing has to be said about those
that are refused. -/
theorem emitChunks_parallel (name : sect.name = second.name) (noBits : sect.noBits = second.noBits)
    (chunks : sect.chunks = second.chunks) {indices : List Nat}
    (each : ∀ index ∈ indices, Parallel (Parallel (related (sect.chunkSites id index)))
      (object.emitChunk output id index) (other.emitChunk another id index))
    (refused : ∀ index ∈ indices, ∀ reason, object.emitChunk output id index = .ok (.error reason) →
      related (sect.chunkSites id index) {} {}) :
    Parallel (related (indices.flatMap (sect.chunkSites id)))
      (object.emitChunks output sect id indices) (other.emitChunks another second id indices) := by
  induction indices with
  | nil => exact .ok (congruence.plain [] [])
  | cons index rest ih =>
    obtain ⟨first, others⟩ := List.forall_mem_cons.mp each
    obtain ⟨refusedFirst, refusedOthers⟩ := List.forall_mem_cons.mp refused
    have later := ih others refusedOthers
    simp only [emitChunks, ← name, ← noBits, ← chunks]
    generalize emits : object.emitChunk output id index = result at first refusedFirst
    generalize other.emitChunk another id index = result' at first
    obtain @⟨left, right, outcome⟩ | ⟨reference⟩ := first
    · obtain @⟨left, right, here⟩ | ⟨reason⟩ := outcome
      · have reported := congruence.report here
        simp only [bind, Except.bind, pure, Except.pure, congruence.bytes here] at reported ⊢
        exact later.bind fun _ _ behind => .ok (congruence.append (reported _) behind)
      · exact later.bind fun _ _ behind =>
          .ok (congruence.append (congruence.report (refusedFirst reason rfl) _) behind)
    · exact .error reference

omit congruence

/-- Chunks that are emitted with equal outcomes make equal programs of their section. -/
theorem emitSection_parallel (found : object.sections[id]? = some sect)
    (foundOther : other.sections[id]? = some second) (laidOut : sect.laidOut = second.laidOut)
    (failed : sect.failed = second.failed) (name : sect.name = second.name)
    (noBits : sect.noBits = second.noBits) (chunks : sect.chunks = second.chunks)
    (relocs : sect.relocs = second.relocs)
    (each : ∀ index < sect.chunks.length,
      object.emitChunk output id index = other.emitChunk another id index) :
    (object.emitSection output id).map (fun emitted => (emitted.requests, emitted.program)) =
      (other.emitSection another id).map fun emitted => (emitted.requests, emitted.program) := by
  have all : object.emitChunks output sect id (List.range sect.chunks.length) =
      other.emitChunks another second id (List.range sect.chunks.length) :=
    (emitChunks_parallel .eq name noBits chunks
      (fun index member => .of_eq (each index (List.mem_range.mp member)) fun outcome _ =>
        .of_eq rfl fun _ _ => rfl) fun _ _ _ _ => rfl).eq fun same => same
  rw [emitSection_eq _ found, emitSection_eq _ foundOther, ← laidOut, ← failed, ← name, ← chunks,
    all]
  split
  · rfl
  · split
    · rfl
    · cases other.emitChunks another second id (List.range sect.chunks.length) with
      | error reference => rfl
      | ok emission => simp only [Except.map, ofEmission, name, noBits, relocs]

end Object

end Assembler
