import Assembler.Proofs.Layout.Sections
import Assembler.Proofs.Linking.Resolution

/-!
# Laying out over imports

A section that can be laid out over a table can be laid out over the linked one. Where branches go
to an import and a constant at most, it is laid out in the same way: the imports in its fields are
linked, and slots, size and all else are the same (`exists_layout_link`). A branch to an import has
no distance before linking, and none afterwards either, for its target is then an absolute address.
-/

namespace Assembler

/-- The branch of a body that is one. -/
def Body.branch? : Body → Option Branch
  | .branch jump => some jump
  | _ => none

/-- If a body is a branch to an import, its target is the import and a constant. -/
def Body.Direct (body : Body) (table : SymbolTable) : Prop :=
  ∀ jump ∈ body.branch?, jump.target.symbol.any table.imports = true → jump.target.expr.terms = []
deriving Decidable

/-- Branches of a section go to an import and a constant, or to no import. -/
def Section.Direct (sect : Section) (table : SymbolTable) : Prop :=
  ∀ chunk ∈ sect.chunks, chunk.body.Direct table
deriving Decidable

/-- A field with its import linked, if it is an import and a constant that count from a position. -/
def Field.linkDirect (field : Field) (table : SymbolTable) (address : String → UInt64) : Field :=
  if field.origin.isSome && field.expr.terms.isEmpty then field.link table address else field

section

variable {table : SymbolTable} {address : String → UInt64}

/-- An import and a constant have no distance from a position, and nor has an address. -/
theorem Field.keepsDistance_linkDirect :
    Relaxation.KeepsDistance fun field => field.linkDirect table address := by
  intro state field
  dsimp only [linkDirect]
  split
  · next direct =>
    simp only [Bool.and_eq_true, List.isEmpty_iff, Option.isSome_iff_exists] at direct
    obtain ⟨⟨origin, counted⟩, constant⟩ := direct
    cases known : field.symbol with
    | none => rw [link_of_local (by simp [known])]
    | some id =>
      cases imported : table.imports id with
      | false => rw [link_of_local (by simp [known, imported])]
      | true =>
        have before : state.distance field = none := by
          simp [Relaxation.distance, Field.positions, known]
        have after : state.distance (field.link table address) = none := by
          simp [Relaxation.distance, Field.positions, link, known, imported, constant, counted,
            Expr.addInt, Option.filter]
        rw [before, after]
  · rfl

/-- A field with an import is linked either way if it is the import and a constant that count from a
position. -/
theorem Field.link_eq_linkDirect {field : Field}
    (direct : field.symbol.any table.imports = true →
      field.origin.isSome = true ∧ field.expr.terms = []) :
    field.link table address = field.linkDirect table address := by
  unfold linkDirect
  cases imported : field.symbol.any table.imports with
  | true =>
    obtain ⟨counted, constant⟩ := direct imported
    rw [if_pos (by simp [counted, constant])]
  | false =>
    have others : ∀ id ∈ field.symbol, table.imports id = false := by
      intro id known
      rw [known, Option.any_some] at imported
      exact imported
    rw [link_of_local others, ite_self]

/-- The spans of a chunk whose target is direct watch fields that can be linked so. -/
theorem span_link_eq {chunk changed : Chunk} {sectionId index : Nat} {spans : List Span}
    (prepares : chunk.prepare table sectionId index = (changed, .ok spans))
    (direct : changed.body.Direct table) {span : Span} (member : span ∈ spans) :
    span.link table address = span.retarget fun field => field.linkDirect table address := by
  obtain ⟨body, copies, countSpan, measure, settles, counts, measures, rfl, rfl⟩ :=
    prepare_ok prepares
  suffices fields : span.field.link table address = span.field.linkDirect table address by
    simp only [Span.link, Span.retarget, fields]
  rcases List.mem_append.mp member with counting | measuring
  · rcases initialCopies_ok counts with ⟨_, _, rfl⟩ | ⟨_, _, _, _, _, ⟨_, _, _, _, rfl⟩ | watched⟩
    · cases counting
    · cases counting
    · rw [watched.2.2.2.2] at counting
      rw [List.mem_singleton.mp counting]
      exact Field.link_eq_linkDirect (by simp)
  · have measured := Body.measured_of_ok measures
    cases measured with
    | deferred unknown =>
      obtain ⟨source, _, settled⟩ := Body.settle_leb128 settles
      rw [List.mem_singleton.mp measuring]
      exact Field.link_eq_linkDirect (by simp [(VariableInteger.settle_ok settled).1])
    | @branch jump _ chosen =>
      obtain ⟨source, _, settled⟩ := Body.settle_branch settles
      obtain ⟨_, _, sameBody, _, near | ⟨_, _, _, fixed | ⟨_, _, watched⟩⟩⟩ :=
        Branch.measure_ok chosen
      · rw [near.2.2] at measuring
        cases measuring
      · rw [fixed.2] at measuring
        cases measuring
      · rw [watched] at measuring
        rw [List.mem_singleton.mp measuring]
        have isBranch : measure.body.branch? = some jump := by
          rw [sameBody]
          rfl
        exact Field.link_eq_linkDirect fun imported =>
          ⟨by simp [(Branch.settle_ok settled).1], direct _ isBranch imported⟩
    | data | constant | reserve | binary | align | org | instruction => cases measuring

variable (table address) in
/-- A section with the imports of its chunks linked. -/
def Section.link (sect : Section) : Section :=
  { sect with
    chunks := sect.chunks.map (Chunk.link table address)
    spans := sect.spans.map (Span.retarget fun field => field.linkDirect table address) }

variable (table address) in
/-- A layout with the imports of its section linked. -/
def Layout.link (layout : Layout) : Layout := { layout with sect := layout.sect.link table address }

/-- A section that can be laid out over a table can be laid out over the linked one. If its chunks
can be linked and its branches are direct, nothing but its imports changes. -/
theorem exists_layout_link {sect : Section} {maxPasses : Int} {id : Nat} {layout : Layout}
    (success : sect.layout table maxPasses id = .ok layout) (silent : layout.error = none) :
    ∃ linked, sect.layout (table.link address) maxPasses id = .ok linked ∧
      ((∀ chunk ∈ sect.chunks, chunk.Linkable table) → layout.sect.Direct table →
        linked = layout.link table address) := by
  obtain ⟨prepared, prepares, rfl⟩ := layout_eq_ok_iff.mp success
  have clean := recorded_error_eq_none_iff.mp silent
  have frame := frame_settle prepared id maxPasses
  have unproblematic := problems_of_settle clean
  obtain ⟨late, linkedPrepares⟩ := exists_prepareAll_link address prepares unproblematic
  refine ⟨_, layout_eq_ok_iff.mpr ⟨late, linkedPrepares, rfl⟩, fun linkable direct => ?_⟩
  have isLate : late = prepared.link table address :=
    Except.ok.inj (linkedPrepares.symm.trans (prepareAll_link linkable prepares unproblematic))
  subst isLate
  have spans : prepared.spans.map (Span.link table address) =
      prepared.spans.map (Span.retarget fun field => field.linkDirect table address) := by
    apply List.map_congr_left
    intro span member
    obtain ⟨index, chunk, chunkAt, registered⟩ := (mem_prepareAll_spans prepares).mp member
    obtain ⟨changed, spans, result, spanMember⟩ := Chunk.prepare_of_mem_preparedSpans registered
    have changedAt : prepared.chunks[index]? = some changed := by
      rw [prepareAll_getElem? prepares, chunkAt, Option.map_some, result]
    have inRange : index < ((prepared.relaxation id).settle maxPasses).slots.length := by
      rw [frame.length, Prepared.relaxation, List.length_map]
      exact (List.getElem?_eq_some_iff.mp changedAt).1
    have recordedAt : (sect.recorded prepared
        ((prepared.relaxation id).settle maxPasses)).sect.chunks[index]? =
          some { changed with
            slot := ((prepared.relaxation id).settle maxPasses).slots[index] } := by
      simp only [Section.recorded, List.getElem?_zipWith, changedAt,
        List.getElem?_eq_getElem inRange]
    have isDirect := direct _ (List.mem_of_getElem? recordedAt)
    exact span_link_eq result isDirect spanMember
  have relaxation : (prepared.link table address).relaxation id =
      (prepared.relaxation id).retarget fun field => field.linkDirect table address := by
    simp only [Prepared.link, Prepared.relaxation, Relaxation.retarget, spans, List.map_map]
    rfl
  rw [relaxation, Relaxation.settle_retarget Field.keepsDistance_linkDirect]
  generalize (prepared.relaxation id).settle maxPasses = relaxed
  simp only [Section.recorded, Layout.link, Section.link, Prepared.link, Relaxation.retarget,
    List.zipWith_map_left, List.map_zipWith, List.length_map]
  rfl

end

end Assembler
