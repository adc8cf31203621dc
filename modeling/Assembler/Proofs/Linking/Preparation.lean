import Assembler.Proofs.Layout.Quantities
import Assembler.Proofs.Linking.Settling
import Assembler.Proofs.Relaxation.Retarget

/-!
# Preparing chunks over imports

A chunk that can be prepared over a table can be prepared over the linked one, with the same slot
and the same spans, and the imports of its fields linked (`prepare_link`). Counts, lengths and rules
have to be constants or distances, so there is no import in them at all.
-/

namespace Assembler

/-- What linking asks of a chunk: no field was settled with an import left in it, and no import
counts more often in an expression than a word can say. -/
@[mk_iff]
structure Chunk.Linkable (chunk : Chunk) (table : SymbolTable) : Prop where
  fresh : ∀ field ∈ chunk.body.fields, field.Fresh table
  fields : ∀ expr ∈ chunk.body.pending, table.Exact expr
  quantities : ∀ expr ∈ chunk.body.quantities, table.Exact expr
  repeats : ∀ expr ∈ chunk.repeats, table.Exact expr

instance (chunk : Chunk) (table : SymbolTable) : Decidable (chunk.Linkable table) :=
  decidable_of_iff _ (chunk.linkable_iff table).symm

section

variable {table : SymbolTable} {address : String → UInt64}

/-- The linked table keeps expansions into positions. -/
theorem keeps_link (address : String → UInt64) {expr : Expr} (exact : table.Exact expr) :
    table.Keeps (table.link address) expr := fun _ expands places =>
  SymbolTable.expand_link_of_places address expands exact places

/-- Data is measured without regard to its imports. -/
theorem measureItems_link (items : List DataItem) :
    measureItems (items.map (DataItem.link table address)) = measureItems items := by
  induction items with
  | nil => rfl
  | cons item rest ih =>
    cases item with
    | bytes content =>
      rw [List.map_cons, DataItem.link, measureItems, measureItems, ih]
    | field inner =>
      rw [List.map_cons, DataItem.link, measureItems, measureItems, ih]
      rfl

/-- Operands are checked without regard to their imports. -/
theorem checkOperands_link (name : String) (size number : Nat) (operands : List Operand) :
    checkOperands name size number (operands.map (Operand.link table address)) =
      checkOperands name size number operands := by
  induction operands generalizing number with
  | nil => rfl
  | cons operand rest ih =>
    rw [List.map_cons, checkOperands, checkOperands, ih]
    rfl

variable (table address) in
/-- A span that watches a linked field. -/
def Span.link (span : Span) : Span := span.retarget fun field => field.link table address

variable (table address) in
/-- A measure with the imports of its body linked. -/
def Measure.link (measure : Measure) : Measure :=
  { measure with
    body := measure.body.link table address
    span := measure.span.map (Span.link table address) }

/-- A branch is measured without regard to its target. -/
theorem Branch.measure_link {jump : Branch} {index : Nat} {counted : Bool} {copies : Int64}
    {measure : Measure} (chosen : jump.measure index counted copies = .ok measure) :
    (jump.link table address).measure index counted copies = .ok (measure.link table address) := by
  obtain ⟨name, short, near, nearWidth, target, form⟩ := jump
  unfold Branch.measure at chosen ⊢
  split at chosen
  · cases chosen
  · next usable =>
    refine (if_neg usable).trans ?_
    cases form with
    | near =>
      cases chosen
      rfl
    | short =>
      cases short <;> cases chosen <;> rfl
    | auto =>
      dsimp only at chosen
      split at chosen
      · next closed =>
        cases chosen
        exact if_pos closed
      · next opened =>
        cases chosen
        exact if_neg opened

/-- A body is measured over the linked table as over the table. -/
theorem Body.measure_link {body : Body} {index : Nat} {counted : Bool} {copies : Int64}
    {measure : Measure} (measures : body.measure table index counted copies = .ok measure)
    (exact : ∀ expr ∈ body.quantities, table.Exact expr)
    (integers : ∀ integer ∈ body.integer?, integer.value.symbol = none) :
    (body.link table address).measure (table.link address) index counted copies =
      .ok (measure.link table address) := by
  have keeps : ∀ expr ∈ body.quantities, table.Keeps (table.link address) expr :=
    fun expr member => keeps_link address (exact expr member)
  have measured := Body.measured_of_ok measures
  cases measured with
  | data sized =>
    simp only [Body.link, Body.measure, measureItems_link, sized, bind, Except.bind, pure,
      Except.pure]
    rfl
  | constant known =>
    simp only [Body.link, Body.measure, known, if_true]
    rfl
  | deferred unknown =>
    simp only [Body.link, Body.measure, unknown, Bool.false_eq_true, if_false, Measure.link,
      Option.map_some, Span.link, Span.retarget]
    rw [Field.link_of_local (by simp [integers _ rfl])]
  | reserve | binary | align | org => exact Body.measure_kept measures keeps
  | instruction inside =>
    simp only [Body.link, Body.measure, checkOperands_link, inside]
    rfl
  | branch chosen => exact Branch.measure_link chosen

variable (table address) in
/-- A chunk with the imports of its body linked. -/
def Chunk.link (chunk : Chunk) : Chunk := { chunk with body := chunk.body.link table address }

/-- A chunk is prepared over the linked table as over the table, with its imports linked. -/
theorem prepare_link {chunk changed : Chunk} {sectionId index : Nat} {spans : List Span}
    (linkable : chunk.Linkable table)
    (prepares : chunk.prepare table sectionId index = (changed, .ok spans)) :
    chunk.prepare (table.link address) sectionId index =
      (changed.link table address, .ok (spans.map (Span.link table address))) := by
  obtain ⟨body, copies, countSpan, measure, settles, counts, measures, rfl, rfl⟩ :=
    prepare_ok prepares
  have quantities := Body.quantities_settle chunk.body table sectionId index chunk.line
  rw [settles] at quantities
  have integers : ∀ integer ∈ body.integer?, integer.value.symbol = none := by
    intro integer isSome
    rw [Body.integer?_eq_some.mp isSome] at settles
    obtain ⟨source, _, settled⟩ := Body.settle_leb128 settles
    exact (VariableInteger.settle_ok settled).1
  have countKept : countSpan.map (Span.link table address) = countSpan := by
    rcases initialCopies_ok counts with ⟨_, _, rfl⟩ | ⟨_, _, _, _, _, ⟨_, _, _, _, rfl⟩ | watched⟩
    · rfl
    · rfl
    · rw [watched.2.2.2.2, Option.map_some, Span.link, Span.retarget,
        Field.link_of_local (by simp)]
  have settled := @Body.settle_link table address sectionId index _ _ _ settles linkable.fresh
    linkable.fields
  have counted := initialCopies_kept counts fun expr member =>
    keeps_link address (linkable.repeats expr member)
  have measured := @Body.measure_link table address _ _ _ _ _ measures
    (quantities ▸ linkable.quantities) integers
  simp only [Chunk.prepare, settled, counted, measured, Chunk.link, List.map_append, Measure.link]
  rw [← Option.toList_map, ← Option.toList_map, countKept]

variable (table address) in
/-- Prepared chunks with their imports linked. -/
def Prepared.link (prepared : Prepared) : Prepared :=
  { prepared with
    chunks := prepared.chunks.map (Chunk.link table address)
    spans := prepared.spans.map (Span.link table address) }

/-- Chunks without a problem are prepared one after the other. -/
theorem prepareAll_cons_clean {chunk : Chunk} {rest : List Chunk} {sectionId start : Nat}
    {prepared : Prepared}
    (prepares : prepareAll table sectionId start (chunk :: rest) = .ok prepared)
    (clean : prepared.problems = []) :
    ∃ changed spans others, chunk.prepare table sectionId start = (changed, .ok spans) ∧
      prepareAll table sectionId (start + 1) rest = .ok others ∧ others.problems = [] ∧
      prepared =
        { others with chunks := changed :: others.chunks, spans := spans ++ others.spans } := by
  rw [prepareAll] at prepares
  cases first : chunk.prepare table sectionId start with
  | mk changed outcome =>
    cases outcome with
    | error halt =>
      cases halt with
      | dangling reference => simp [first] at prepares
      | problem error =>
        simp only [first] at prepares
        obtain ⟨others, _, same⟩ := exists_of_bind_ok prepares
        cases same
        cases clean
    | ok spans =>
      simp only [first] at prepares
      obtain ⟨others, following, same⟩ := exists_of_bind_ok prepares
      cases same
      exact ⟨changed, spans, others, rfl, following, clean, rfl⟩

/-- Chunks without a problem are prepared over the linked table as over the table. -/
theorem prepareAll_link {chunks : List Chunk} {sectionId start : Nat} {prepared : Prepared}
    (linkable : ∀ chunk ∈ chunks, chunk.Linkable table)
    (prepares : prepareAll table sectionId start chunks = .ok prepared)
    (clean : prepared.problems = []) :
    prepareAll (table.link address) sectionId start chunks = .ok (prepared.link table address) := by
  induction chunks generalizing start prepared with
  | nil =>
    cases prepares
    rfl
  | cons chunk rest ih =>
    obtain ⟨linkableFirst, linkableRest⟩ := List.forall_mem_cons.mp linkable
    obtain ⟨changed, spans, others, first, following, clean, rfl⟩ :=
      prepareAll_cons_clean prepares clean
    simp only [prepareAll, prepare_link linkableFirst first, ih linkableRest following clean, bind,
      Except.bind, pure, Except.pure]
    simp [Prepared.link]

end

end Assembler
