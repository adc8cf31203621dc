import Assembler.Proofs.Emission.Bare
import Assembler.Proofs.Linking.Settling
import Assembler.Proofs.Relayout.Repetition
import Assembler.Proofs.Symbol.Definition

/-!
# Definitions between two layouts

A section may be laid out while a symbol has no meaning yet, and again when it has got one. The
second layout is the one that the meaning would have given at once exactly if every field that the
first layout settled comes out alike over both tables (`layout_late_iff`). A field does if it does
not reach the symbol. It does not if the first layout left the symbol to a relocation: the field
keeps asking for it, although the symbol has a meaning (`layoutSection_late_iff`).
-/

namespace Assembler

namespace Field

variable {field settled : Field} {site : Location}

/-- A field settles alike over a table that grows, if it is settled already or reaches nothing new.
-/
theorem settle_congr {table after : SymbolTable}
    (grows : table.symbols.length ≤ after.symbols.length)
    (agree : field.settled = false → ∀ id, table.Reaches field.expr id →
      after.get? id = table.get? id) :
    field.settle after site = field.settle table site := by
  cases done : field.settled with
  | true => rw [settle_of_settled done, settle_of_settled done]
  | false => rw [settle, settle, SymbolTable.expand_congr grows (agree done)]

/-- The symbol that settling leaves to a relocation has no meaning. -/
theorem unresolved_of_settle {table : SymbolTable} {id : SymbolId}
    (fresh : field.settled = false) (success : field.settle table site = .ok settled)
    (left : settled.symbol = some id) : table.Unresolved (.symbol id) := by
  unfold settle at success
  rw [if_neg (by simp [fresh])] at success
  obtain ⟨expanded, expands, splits⟩ := exists_of_bind_ok success
  obtain ⟨⟨expr, symbol⟩, parts, same⟩ := exists_of_bind_ok splits
  cases same
  cases left
  obtain ⟨weights, weighed, _⟩ := SymbolTable.exists_weights expands
  rw [split_eq, foldlM_splitTerm_eq_ok_iff] at parts
  have member : Term.ofSymbol id ∈ expanded.terms.filter fun term => !term.isPlace := by
    have terms := parts.2
    rw [Option.toList_none, List.map_nil, List.nil_append] at terms
    rw [terms]
    exact List.mem_singleton_self _
  exact weighed.unresolved _ (List.mem_of_mem_filter member)

end Field

/-- Every field of a section that is settled over the early symbols comes out alike over the late
ones. -/
def Section.Lasts (early late : SymbolTable) (id : Nat) (sect : Section) : Prop :=
  ∀ (index : Nat) (chunk : Chunk), sect.chunks[index]? = some chunk →
    chunk.body.Lasts early late id index

section

variable {early late : SymbolTable} {sect : Section} {maxPasses : Int} {id : Nat}

/-- A layout settles the bodies of the chunks; only parts of given bytes change beyond that. -/
theorem layout_body {table : SymbolTable} {layout : Layout}
    (success : sect.layout table maxPasses id = .ok layout) {index : Nat} {chunk : Chunk}
    (chunkAt : sect.chunks[index]? = some chunk) (other : chunk.body.kind ≠ .binary) :
    ∃ after, layout.sect.chunks[index]? = some after ∧ after.line = chunk.line ∧
      after.body = (chunk.body.settle table id index chunk.line).1 := by
  obtain ⟨prepared, prepares, rfl⟩ := layout_eq_ok_iff.mp success
  have inRange := (List.getElem?_eq_some_iff.mp chunkAt).1
  rw [← length_recorded prepares (length_settle prepared id maxPasses)] at inRange
  obtain ⟨before, slot, beforeAt, _, same⟩ :=
    Section.getElem?_recorded (List.getElem?_eq_getElem inRange)
  refine ⟨_, List.getElem?_eq_getElem inRange, ?_⟩
  rw [same]
  rw [prepareAll_getElem? prepares, chunkAt, Option.map_some, Option.some.injEq] at beforeAt
  obtain ⟨body, _, changed, rfl | ⟨part, _, isPart, _⟩⟩ := chunk.prepare_body table id index
  · rw [← beforeAt, changed]
    exact ⟨rfl, rfl⟩
  · rw [isPart] at other
    exact absurd rfl other

/-- After an early layout, the late symbols lay a section out as they would have done at once
exactly if the fields that the early layout settled come out alike. -/
theorem layout_late_iff {first second : Layout}
    (earlier : sect.layout early maxPasses id = .ok first)
    (later : first.sect.layout late maxPasses id = .ok second) (silent : second.error = none) :
    sect.layout late maxPasses id = .ok second ↔ sect.Lasts early late id := by
  constructor
  · intro direct index chunk chunkAt
    by_cases part : chunk.body.kind = .binary
    · obtain ⟨given, isPart⟩ := Body.eq_binary part
      intro entry member
      rw [isPart] at member
      cases member
    · obtain ⟨once, onceAt, line, settled⟩ := layout_body earlier chunkAt part
      have kind : once.body.kind ≠ .binary := by rwa [settled, Body.settle_kind]
      obtain ⟨twice, twiceAt, _, again⟩ := layout_body later onceAt kind
      obtain ⟨direct, directAt, _, atOnce⟩ := layout_body direct chunkAt part
      obtain rfl := Option.some.inj (twiceAt.symm.trans directAt)
      rw [atOnce, settled, line] at again
      exact Body.lasts_of_settle again.symm
  · intro lasts
    obtain ⟨before, prepares, rfl⟩ := layout_eq_ok_iff.mp earlier
    obtain ⟨prepared, again, rfl⟩ := layout_eq_ok_iff.mp later
    have reports := reportProblem_recorded prepares (length_settle before id maxPasses)
    have length := length_recorded prepares (length_settle before id maxPasses)
    have unproblematic := problems_of_settle (recorded_error_eq_none_iff.mp silent)
    refine layout_eq_ok_iff.mpr ⟨prepared, ?_, ?_⟩
    · rw [← again]
      refine prepareAll_congr length.symm fun place once chunk onceAt chunkAt => ?_
      rw [Nat.zero_add]
      obtain ⟨changed, spans, result⟩ := prepare_of_clean again unproblematic onceAt
      obtain ⟨_, slot, beforeAt, _, rfl⟩ := Section.getElem?_recorded onceAt
      rw [prepareAll_getElem? prepares, chunkAt, Option.map_some, Option.some.injEq] at beforeAt
      subst beforeAt
      rw [result]
      exact (Chunk.prepare_again (lasts place chunk chunkAt) slot).mp result
    · generalize (before.relaxation id).settle maxPasses = relaxed at reports ⊢
      rw [Section.recorded, Section.recorded, reports]
      rfl

/-- A section lasts if none of its fields reaches what the late table has changed. -/
theorem Section.lasts_of_unreached (grows : early.symbols.length ≤ late.symbols.length)
    {changed : SymbolId} (others : ∀ other, other ≠ changed → late.get? other = early.get? other)
    (apart : ∀ (index : Nat) (chunk : Chunk) (entry : UInt64 × Field),
      sect.chunks[index]? = some chunk → entry ∈ chunk.body.settling → entry.2.settled = false →
        ¬ early.Reaches entry.2.expr changed) : sect.Lasts early late id := by
  intro index chunk chunkAt entry member
  refine Field.settle_congr grows fun fresh other reaches => others other ?_
  rintro rfl
  exact apart index chunk entry chunkAt ((List.takeWhile_sublist _).mem member) fresh reaches

/-- A section does not last if a field was left to a relocation by a symbol that has a meaning
later. -/
theorem Section.not_lasts_of_symbol {id : Nat} {index : Nat} {chunk : Chunk}
    {entry : UInt64 × Field} {settled : Field} {symbol : SymbolId}
    (resolved : ¬ late.Unresolved (.symbol symbol)) (chunkAt : sect.chunks[index]? = some chunk)
    (member : entry ∈ settledFirst id index early chunk.body.settling)
    (fresh : entry.2.settled = false)
    (settles : entry.2.settle early ⟨id, index, entry.1⟩ = .ok settled)
    (left : settled.symbol = some symbol) : ¬ sect.Lasts early late id := by
  intro lasts
  have again := (lasts index chunk chunkAt entry member).trans settles
  exact resolved (Field.unresolved_of_settle fresh again left)

end

/-- What gives a name a meaning in its own object. -/
inductive Definition where
  /-- The position behind the last chunk of a section. -/
  | label (home : Nat)
  /-- An expression. -/
  | equ (body : Expr)
deriving DecidableEq

namespace Definition

/-- The meaning that a definition gives. -/
def meaning (object : Object) : Definition → Meaning
  | .label home =>
    .label (((object.sections[home]?).map fun sect => sect.here home).getD ⟨home, 0, 0⟩)
  | .equ body => .equ body

/-- A section after a definition: a label at its end waits for the next chunk. -/
def marked (definition : Definition) (symbol : SymbolId) (place : Nat) (sect : Section) : Section :=
  { sect with
    pending := sect.pending ++ if definition = .label place then [symbol] else [] }

/-- The sections after a definition. -/
def mark (definition : Definition) (symbol : SymbolId) (sections : List Section) : List Section :=
  sections.mapIdx (definition.marked symbol)

/-- An EQU marks no section. -/
theorem mark_equ (body : Expr) (symbol : SymbolId) (sections : List Section) :
    mark (.equ body) symbol sections = sections := by
  have unmarked : ∀ place, (equ body).marked symbol place = id := by
    intro place
    funext sect
    simp [marked]
  simp [mark, List.mapIdx_eq_iff, unmarked]

/-- A label waits in its section. -/
theorem mark_label (home : Nat) (symbol : SymbolId) (sections : List Section) :
    mark (.label home) symbol sections =
      sections.modify home fun sect => { sect with pending := sect.pending ++ [symbol] } := by
  apply List.ext_getElem?
  intro place
  rw [mark, List.getElem?_mapIdx, List.getElem?_modify]
  congr 1
  funext sect
  by_cases here : home = place
  · simp [marked, here]
  · simp [marked, here]

/-- A section that is replaced after a definition may have been replaced before. -/
theorem set_mark_set (definition : Definition) (symbol : SymbolId) (sections : List Section)
    (place : Nat) (before after : Section) :
    (definition.mark symbol (sections.set place before)).set place after =
      (definition.mark symbol sections).set place after := by
  apply List.ext_getElem?
  intro other
  by_cases here : place = other
  · subst here
    simp [mark, List.getElem?_set]
  · rw [List.getElem?_set_ne here, List.getElem?_set_ne here, mark, mark, List.getElem?_mapIdx,
      List.getElem?_mapIdx, List.getElem?_set_ne here]

end Definition

/-- The labels behind the last chunk have no part in a layout. -/
theorem Section.layout_pending (sect : Section) (pending : List SymbolId) (table : SymbolTable)
    (maxPasses : Int) (id : Nat) :
    ({ sect with pending } : Section).layout table maxPasses id =
      (sect.layout table maxPasses id).map fun layout =>
        { layout with sect := { layout.sect with pending } } := by
  unfold Section.layout
  change (prepareAll table id 0 sect.chunks >>= _) = _
  cases prepareAll table id 0 sect.chunks <;> rfl

namespace Object

/-- Define a name as a label or an EQU. -/
def give (object : Object) (definition : Definition) (name : String) (line : Int) :
    Object × SymbolId × Option Error :=
  match definition with
  | .label home => object.defineLabel home name line
  | .equ body => object.define name (.equ body) line

/-- A definition that is not refused changes the table, and marks the section of a label. -/
theorem give_eq_iff {object after : Object} {definition : Definition} {name : String} {line : Int}
    {symbol : SymbolId} :
    object.give definition name line = (after, symbol, none) ↔
      ∃ table,
        object.table.define name (definition.meaning object) line = (table, symbol, none) ∧
        after = { object with table, sections := definition.mark symbol object.sections } := by
  cases definition with
  | equ body =>
    simp only [give, define, Definition.meaning, Definition.mark_equ, Prod.mk.injEq]
    constructor
    · rintro ⟨rfl, rfl, accepted⟩
      exact ⟨_, by rw [← accepted], rfl⟩
    · rintro ⟨table, defined, rfl⟩
      rw [defined]
      exact ⟨rfl, rfl, rfl⟩
  | label home =>
    simp only [give, defineLabel, define, Definition.meaning, Definition.mark_label]
    cases defined : object.table.define name
        (.label (((object.sections[home]?).map fun sect => sect.here home).getD ⟨home, 0, 0⟩))
        line with
    | mk table result =>
      obtain ⟨number, refused⟩ := result
      cases refused with
      | some error => simp
      | none =>
        simp only [modifySection, Prod.mk.injEq, and_true]
        constructor
        · rintro ⟨rfl, rfl⟩
          exact ⟨table, ⟨rfl, rfl⟩, rfl⟩
        · rintro ⟨_, ⟨rfl, rfl⟩, rfl⟩
          exact ⟨rfl, rfl⟩

end Object

variable {object laid late relaid : Object} {id : Nat} {first second : Layout}
  {definition : Definition} {name : String} {line : Int} {symbol : SymbolId}

/-- A definition means the same before and after a layout: no position is lost or added. -/
theorem meaning_laid (lays : object.layoutSection id = .ok (laid, first)) :
    definition.meaning laid = definition.meaning object := by
  cases definition with
  | equ body => rfl
  | label home =>
    obtain ⟨sect, found, result, recorded, _⟩ := layoutSection_ok lays
    simp only [Definition.meaning]
    by_cases here : home = id
    · subst here
      obtain ⟨prepared, prepares, rfl⟩ := layout_eq_ok_iff.mp result
      rw [found, recorded, Option.map_some, Option.map_some, Section.here, Section.here,
        length_recorded prepares (length_settle prepared home object.maxPasses)]
    · rw [(layoutSection_frame lays).2.2 home here]

/-- A definition that is accepted after a layout would have been accepted before it. -/
theorem give_of_laid (lays : object.layoutSection id = .ok (laid, first))
    (given : laid.give definition name line = (late, symbol, none)) :
    object.give definition name line =
      ({ object with
        table := late.table
        sections := definition.mark symbol object.sections }, symbol, none) := by
  obtain ⟨table, defined, rfl⟩ := Object.give_eq_iff.mp given
  rw [(layoutSection_frame lays).1, meaning_laid lays] at defined
  exact Object.give_eq_iff.mpr ⟨table, defined, rfl⟩

/-- What laying out a section makes of its object. -/
theorem layoutSection_eq_ok_iff {sect : Section} (found : object.sections[id]? = some sect) :
    object.layoutSection id = .ok (laid, first) ↔
      sect.layout object.table object.maxPasses id = .ok first ∧
        laid =
          { object with
            sections := object.sections.set id first.sect
            diagnostics := object.diagnostics ++ first.diagnostics } := by
  rw [layoutSection_eq found]
  cases sect.layout object.table object.maxPasses id with
  | error reference => simp [Except.map]
  | ok layout =>
    simp only [Except.map, Except.ok.injEq, Prod.mk.injEq]
    constructor
    · rintro ⟨rfl, rfl⟩
      exact ⟨rfl, rfl⟩
    · rintro ⟨rfl, rfl⟩
      exact ⟨rfl, rfl⟩

/-- A late definition and an early one lead to the same layout exactly if the fields come out alike;
labels at the end of the section make no difference. -/
theorem layout_marked_iff {early late : SymbolTable} {sect : Section} {maxPasses : Int}
    {place : Nat} (earlier : sect.layout early maxPasses id = .ok first)
    (later : (definition.marked symbol place first.sect).layout late maxPasses id = .ok second)
    (silent : second.error = none) :
    (definition.marked symbol place sect).layout late maxPasses id = .ok second ↔
      sect.Lasts early late id := by
  have begins := Section.layout_pending sect (definition.marked symbol place sect).pending early
    maxPasses id
  rw [earlier] at begins
  have pending : first.sect.pending = sect.pending := by
    obtain ⟨prepared, _, rfl⟩ := layout_eq_ok_iff.mp earlier
    rfl
  refine layout_late_iff begins ?_ silent
  rw [← later, Definition.marked, Definition.marked, pending]

/-- A section is laid out, a name is defined, and the section is laid out again without an error.
The definition would have been accepted before the first layout. It would then have given the very
layout of the second one exactly if every field that the first layout settled comes out alike, and
the section would have been emitted alike by every output. So it is if no unsettled field reaches
the symbol, and it is not if the first layout left the symbol to a relocation. -/
theorem layoutSection_late_iff (lays : object.layoutSection id = .ok (laid, first))
    (given : laid.give definition name line = (late, symbol, none))
    (again : late.layoutSection id = .ok (relaid, second)) (silent : second.error = none) :
    ∃ sect early, object.sections[id]? = some sect ∧
      object.give definition name line = (early, symbol, none) ∧
      ((∃ placed, early.layoutSection id = .ok (placed, second)) ↔
        sect.Lasts object.table early.table id) ∧
      (∀ placed, early.layoutSection id = .ok (placed, second) → ∀ output,
        (relaid.emitSection output id).map (fun emitted => (emitted.requests, emitted.program)) =
          (placed.emitSection output id).map fun emitted => (emitted.requests, emitted.program)) ∧
      ((∀ (index : Nat) (chunk : Chunk) (entry : UInt64 × Field),
        sect.chunks[index]? = some chunk → entry ∈ chunk.body.settling →
          entry.2.settled = false → ¬ object.table.Reaches entry.2.expr symbol) →
        sect.Lasts object.table early.table id) ∧
      ∀ (index : Nat) (chunk : Chunk) (entry : UInt64 × Field) (settled : Field),
        sect.chunks[index]? = some chunk →
        entry ∈ settledFirst id index object.table chunk.body.settling →
        entry.2.settled = false →
        entry.2.settle object.table ⟨id, index, entry.1⟩ = .ok settled →
        settled.symbol = some symbol → ¬ sect.Lasts object.table early.table id := by
  obtain ⟨sect, found, result, _, _⟩ := layoutSection_ok lays
  have sooner := give_of_laid lays given
  obtain ⟨_, rfl⟩ := (layoutSection_eq_ok_iff found).mp lays
  obtain ⟨table, defined, rfl⟩ := Object.give_eq_iff.mp given
  obtain ⟨means, grows, _, others⟩ := SymbolTable.define_ok defined
  have inRange := (List.getElem?_eq_some_iff.mp found).1
  have foundEarly : (definition.mark symbol object.sections)[id]? =
      some (definition.marked symbol id sect) := by
    rw [Definition.mark, List.getElem?_mapIdx, found, Option.map_some]
  have foundLate : (definition.mark symbol (object.sections.set id first.sect))[id]? =
      some (definition.marked symbol id first.sect) := by
    rw [Definition.mark, List.getElem?_mapIdx, List.getElem?_set_self inRange, Option.map_some]
  obtain ⟨later, rfl⟩ := (layoutSection_eq_ok_iff foundLate).mp again
  refine ⟨sect, _, found, sooner, ?_, ?_, Section.lasts_of_unreached grows others, ?_⟩
  · rw [← layout_marked_iff result later silent]
    constructor
    · rintro ⟨placed, direct⟩
      exact ((layoutSection_eq_ok_iff foundEarly).mp direct).1
    · intro direct
      exact ⟨_, (layoutSection_eq_ok_iff foundEarly).mpr ⟨direct, rfl⟩⟩
  · intro placed direct output
    obtain ⟨_, rfl⟩ := (layoutSection_eq_ok_iff foundEarly).mp direct
    refine Object.emitSection_alike ?_ ?_
    · simp only [Object.bare, Definition.set_mark_set]
    · simp only [Definition.set_mark_set]
  · intro index chunk entry settled chunkAt member fresh settles left
    refine Section.not_lasts_of_symbol ?_ chunkAt member fresh settles left
    rintro ⟨known, same, unresolved⟩
    rw [means, Option.some.injEq] at same
    subst same
    cases definition <;> simp [Definition.meaning] at unresolved

/-- The program of a section with relocations allowed, if it is accepted. -/
def Object.program? (object : Object) (id : Nat) : Option Program :=
  (object.emitSection (.standard object.table true) id).toOption.bind fun emitted =>
    emitted.program.toOption

/-- Two sections that refer to a symbol without a meaning: the first in a field, the second in an
integer that spells the distance from its start, before a jump and padding. -/
def awaiting : Object where
  sections :=
    [{ name := ".text"
       chunks := [{ body := .data [.field { expr := .ofSymbol 1, width := 32 }] }] },
      { name := ".data"
        chunks :=
        [{ body := .leb128
            { number := { terms := [⟨-1, .place ⟨1, 0, 0⟩⟩, ⟨1, .symbol 1⟩] }, signed := false } },
          { body := .branch (Machine.jmp (.ofLocation ⟨1, 0, 0⟩)) },
          { body := .align { boundary := .ofInt 16 } }] }]
  table := { symbols := [{ name := "x" }] }

/-- The field keeps asking for the symbol when it becomes an EQU, where the EQU would have been
filled in at once. The integer, which could not be laid out before, spells the distance of a label
that was defined late, and the section is emitted as if it had been there. -/
theorem awaiting_late :
    (∃ laid first late relaid second early placed direct,
      awaiting.layoutSection 0 = .ok (laid, first) ∧
        laid.give (.equ (.ofInt 7)) "x" 3 = (late, 1, none) ∧
        late.layoutSection 0 = .ok (relaid, second) ∧ second.error = none ∧
        awaiting.give (.equ (.ofInt 7)) "x" 3 = (early, 1, none) ∧
        early.layoutSection 0 = .ok (placed, direct) ∧ direct ≠ second ∧
        relaid.program? 0 =
          some { name := ".text", code := [0, 0, 0, 0], relocs := [⟨0, 1, 0, 32, false, false⟩] } ∧
        placed.program? 0 = some { name := ".text", code := [7, 0, 0, 0] }) ∧
    ∃ laid first late relaid second early placed,
      awaiting.layoutSection 1 = .ok (laid, first) ∧ first.error ≠ none ∧
        laid.give (.label 1) "x" 3 = (late, 1, none) ∧
        late.layoutSection 1 = .ok (relaid, second) ∧ second.error = none ∧
        awaiting.give (.label 1) "x" 3 = (early, 1, none) ∧
        early.layoutSection 1 = .ok (placed, second) ∧
        ∀ output,
          (relaid.emitSection output 1).map (fun emitted => (emitted.requests, emitted.program)) =
            (placed.emitSection output 1).map fun emitted =>
              (emitted.requests, emitted.program) := by
  constructor
  · obtain ⟨⟨laid, first⟩, lays, accepted, relays⟩ := exists_ok_of_any (awaiting.layoutSection 0)
      (p := fun result => (result.1.give (.equ (.ofInt 7)) "x" 3).2 = (1, none) ∧
        (((result.1.give (.equ (.ofInt 7)) "x" 3).1.layoutSection 0).toOption.any fun again =>
          again.2.error = none ∧ again.1.program? 0 =
            some
              { name := ".text"
                code := [0, 0, 0, 0]
                relocs := [⟨0, 1, 0, 32, false, false⟩] }) = true)
      (by decide +kernel)
    obtain ⟨⟨relaid, second⟩, again, silent, emitted⟩ := exists_ok_of_any _ relays
    obtain ⟨⟨placed, direct⟩, places, filled⟩ :=
      exists_ok_of_any ((awaiting.give (.equ (.ofInt 7)) "x" 3).1.layoutSection 0)
        (p := fun result => result.1.program? 0 = some { name := ".text", code := [7, 0, 0, 0] })
        (by decide +kernel)
    have given : laid.give (.equ (.ofInt 7)) "x" 3 =
        ((laid.give (.equ (.ofInt 7)) "x" 3).1, 1, none) := Prod.ext rfl accepted
    obtain ⟨sect, early, found, sooner, iff, _, _, fails⟩ :=
      layoutSection_late_iff lays given again silent
    rw [sooner] at places
    refine ⟨laid, first, _, relaid, second, early, placed, direct, lays, given, again, silent,
      sooner, places, ?_, emitted, filled⟩
    rintro rfl
    cases found
    obtain ⟨settled, settles, left⟩ := exists_ok_of_any
      (Field.settle { expr := .ofSymbol 1, width := 32 } awaiting.table ⟨0, 0, 0⟩)
      (p := fun settled => settled.symbol = some 1) (by decide +kernel)
    exact fails 0 _ (0, { expr := .ofSymbol 1, width := 32 }) settled rfl (by decide +kernel) rfl
      settles left (iff.mp ⟨placed, places⟩)
  · obtain ⟨⟨laid, first⟩, lays, refused, accepted, relays⟩ :=
      exists_ok_of_any (awaiting.layoutSection 1)
        (p := fun result => result.2.error ≠ none ∧
          (result.1.give (.label 1) "x" 3).2 = (1, none) ∧
          (((result.1.give (.label 1) "x" 3).1.layoutSection 1).toOption.any fun again =>
            again.2.error = none) = true)
        (by decide +kernel)
    obtain ⟨⟨relaid, second⟩, again, silent⟩ := exists_ok_of_any _ relays
    have given : laid.give (.label 1) "x" 3 = ((laid.give (.label 1) "x" 3).1, 1, none) :=
      Prod.ext rfl accepted
    obtain ⟨sect, early, found, sooner, iff, alike, lasts, _⟩ :=
      layoutSection_late_iff lays given again silent
    have positions : ∀ chunk ∈ sect.chunks, ∀ entry ∈ chunk.body.settling,
        ∀ term ∈ entry.2.expr.terms, term.isPlace = true := by
      cases found
      decide +kernel
    obtain ⟨placed, direct⟩ := iff.mpr (lasts fun index chunk entry chunkAt member _ reaches => by
      obtain ⟨_, ⟨term, isTerm, isSymbol⟩, _⟩ := reaches
      have isPlace := positions chunk (List.mem_of_getElem? chunkAt) entry member term isTerm
      rw [Term.isPlace, isSymbol] at isPlace
      cases isPlace)
    exact ⟨laid, first, _, relaid, second, early, placed, lays, refused, given, again, silent,
      sooner, direct, alike placed direct⟩

end Assembler
