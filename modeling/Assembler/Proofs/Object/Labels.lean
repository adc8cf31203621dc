import Assembler.Proofs.Object.History
import Assembler.Proofs.Object.Staleness
import Assembler.Proofs.Symbol.Names

/-!
# Symbols and labels in the course of calls

A section keeps a list of labels for every chunk, of those right before it, and one for its end. A
new chunk takes over the list of the end, and new labels are added to that list. So in an object
that calls build, every label is in the list of its position and nowhere else, and nothing but
labels is in the lists (`Object.Consistent`). This holds after any calls on sections that exist
(`Consistent.after_run`), while symbols keep their numbers, names and meanings (`lasts_of_run`).
-/

namespace Assembler

namespace Section

/-- The labels right before each chunk, and last those behind all of them. -/
def labelLists (sect : Section) : List (List SymbolId) :=
  sect.chunks.map Chunk.labels ++ [sect.pending]

/-- The labels right before the chunk at an index, or behind the last one. -/
def labelsAt (sect : Section) (index : Nat) : List SymbolId := (sect.labelLists[index]?).getD []

/-- All labels of a section. -/
def labels (sect : Section) : List SymbolId := sect.chunks.flatMap Chunk.labels ++ sect.pending

variable {sect : Section} {label : SymbolId} {index : Nat}

/-- A label waits at its chunk, or at the end. -/
theorem mem_labelsAt_iff :
    label ∈ sect.labelsAt index ↔
      (∃ chunk, sect.chunks[index]? = some chunk ∧ label ∈ chunk.labels) ∨
        index = sect.chunks.length ∧ label ∈ sect.pending := by
  rw [labelsAt, labelLists, List.getElem?_append, List.length_map]
  split
  · next inside =>
    rw [List.getElem?_map, List.getElem?_eq_getElem inside]
    simp only [Option.map_some, Option.getD_some, Option.some.injEq, exists_eq_left']
    exact ⟨.inl, fun either => either.resolve_right fun behind => by omega⟩
  · next beyond =>
    rw [List.getElem?_eq_none (by omega : sect.chunks.length ≤ index), List.getElem?_singleton]
    split
    · next last => simp [show index = sect.chunks.length by omega]
    · next past => simp [show index ≠ sect.chunks.length by omega]

/-- Every label is at some chunk, or at the end. -/
theorem mem_labels_iff : label ∈ sect.labels ↔ ∃ index, label ∈ sect.labelsAt index := by
  rw [labels, List.mem_append, List.mem_flatMap]
  simp only [mem_labelsAt_iff]
  constructor
  · rintro (⟨chunk, inside, member⟩ | pending)
    · obtain ⟨index, found⟩ := List.getElem?_of_mem inside
      exact ⟨index, .inl ⟨chunk, found, member⟩⟩
    · exact ⟨_, .inr ⟨rfl, pending⟩⟩
  · rintro ⟨index, ⟨chunk, found, member⟩ | ⟨_, pending⟩⟩
    · exact .inl ⟨chunk, List.mem_of_getElem? found, member⟩
    · exact .inr pending

/-- Sections have the same labels at the same positions. -/
structure SameLabels (sect other : Section) : Prop where
  labels : sect.labels = other.labels
  labelsAt : ∀ index, sect.labelsAt index = other.labelsAt index

/-- Labels are those of the chunks and of the end. -/
theorem SameLabels.of_chunks {other : Section}
    (chunks : sect.chunks.map Chunk.labels = other.chunks.map Chunk.labels)
    (pending : sect.pending = other.pending) : sect.SameLabels other where
  labels := by
    rw [Section.labels, Section.labels, List.flatMap_def, List.flatMap_def, chunks, pending]
  labelsAt := by
    intro index
    rw [Section.labelsAt, Section.labelsAt, labelLists, labelLists, chunks, pending]

/-- A new chunk takes over the labels at the end. -/
theorem sameLabels_append (sect : Section) (body : Body) (line : Int) (repeats : Option Expr) :
    (sect.append body line repeats).SameLabels sect where
  labels := by simp [Section.labels, append]
  labelsAt := by
    intro index
    have lists : (sect.append body line repeats).labelLists = sect.labelLists ++ [[]] := by
      simp [labelLists, append]
    rw [Section.labelsAt, Section.labelsAt, lists, List.getElem?_append]
    split
    · rfl
    · next beyond =>
      rw [List.getElem?_eq_none (Nat.le_of_not_lt beyond), List.getElem?_singleton]
      split <;> rfl

/-- A new repeat count moves no label. -/
theorem sameLabels_setRepeats (sect : Section) (place : Nat) (repeats : Expr) :
    (sect.setRepeats place repeats).SameLabels sect := by
  refine .of_chunks (List.ext_getElem? fun index => ?_) rfl
  rw [setRepeats, List.getElem?_map, List.getElem?_map, List.getElem?_modify]
  split <;> cases sect.chunks[index]? <;> rfl

end Section

/-- Preparing a chunk keeps its labels. -/
theorem Chunk.labels_prepare (chunk : Chunk) (table : SymbolTable) (sectionId index : Nat) :
    (chunk.prepare table sectionId index).1.labels = chunk.labels := by
  obtain ⟨body, slot, same, _⟩ := chunk.prepare_body table sectionId index
  rw [same]

/-- A layout moves no label. -/
theorem Section.sameLabels_layout {sect : Section} {table : SymbolTable} {maxPasses : Int}
    {id : Nat} {layout : Layout} (lays : sect.layout table maxPasses id = .ok layout) :
    layout.sect.SameLabels sect := by
  obtain ⟨prepared, success, rfl⟩ := layout_eq_ok_iff.mp lays
  refine .of_chunks (List.ext_getElem? fun index => ?_) rfl
  rw [List.getElem?_map, List.getElem?_map]
  have length := length_recorded success (length_settle prepared id maxPasses)
  rcases Nat.lt_or_ge index sect.chunks.length with inside | beyond
  · obtain ⟨laid, laidAt⟩ : ∃ laid,
        (sect.recorded prepared ((prepared.relaxation id).settle maxPasses)).sect.chunks[index]? =
          some laid := ⟨_, List.getElem?_eq_getElem (length ▸ inside)⟩
    obtain ⟨before, slot, beforeAt, _, rfl⟩ := Section.getElem?_recorded laidAt
    rw [prepareAll_getElem? success, List.getElem?_eq_getElem inside, Option.map_some,
      Option.some.injEq] at beforeAt
    rw [laidAt, List.getElem?_eq_getElem inside, ← beforeAt]
    exact congrArg some (Chunk.labels_prepare ..)
  · rw [List.getElem?_eq_none beyond, List.getElem?_eq_none (length ▸ beyond)]

namespace Object

/-- All labels of the sections. -/
def labels (object : Object) : List SymbolId := object.sections.flatMap Section.labels

/-- The labels at the position before the chunk at an index, in the section with a number. -/
def labelsAt (object : Object) (id index : Nat) : List SymbolId :=
  ((object.sections[id]?).map fun sect => sect.labelsAt index).getD []

variable {object next : Object} {label : SymbolId} {id index : Nat} {sect : Section}

/-- The labels at a position are those of its section. -/
theorem mem_labelsAt_iff :
    label ∈ object.labelsAt id index ↔
      ∃ sect, object.sections[id]? = some sect ∧ label ∈ sect.labelsAt index := by
  unfold labelsAt
  cases object.sections[id]? <;> simp

/-- Every label is at some position. -/
theorem mem_labels_iff : label ∈ object.labels ↔ ∃ id index, label ∈ object.labelsAt id index := by
  simp only [labels, List.mem_flatMap, Section.mem_labels_iff, mem_labelsAt_iff]
  constructor
  · rintro ⟨sect, inside, index, here⟩
    obtain ⟨id, found⟩ := List.getElem?_of_mem inside
    exact ⟨id, index, sect, found, here⟩
  · rintro ⟨id, index, sect, found, here⟩
    exact ⟨sect, List.mem_of_getElem? found, index, here⟩

/-- Objects have the same labels at the same positions. -/
structure SameLabels (next object : Object) : Prop where
  labels : next.labels = object.labels
  labelsAt : ∀ id index, next.labelsAt id index = object.labelsAt id index

/-- A change of a section that leaves its labels alone. -/
theorem sameLabels_modify (object : Object) (id : Nat) {change : Section → Section}
    (same : ∀ sect, object.sections[id]? = some sect → (change sect).SameLabels sect) :
    (object.modifySection id change).SameLabels object where
  labels := by
    unfold labels modifySection
    dsimp only
    generalize object.sections = sections at same
    induction sections generalizing id with
    | nil => simp
    | cons first rest ih =>
      cases id with
      | zero => simp [List.modify_zero_cons, (same first rfl).labels]
      | succ id => simp [List.modify_succ_cons, ih id same]
  labelsAt := by
    intro place index
    rw [labelsAt, labelsAt, getElem?_modifySection]
    split
    · next here =>
      subst here
      cases found : object.sections[id]? with
      | none => rfl
      | some sect => exact (same sect found).labelsAt index
    · rfl

/-- A new section has no labels. -/
theorem sameLabels_openSection (object : Object) (name : String) :
    (object.openSection name).1.SameLabels object := by
  unfold openSection
  split
  · exact ⟨rfl, fun _ _ => rfl⟩
  · refine ⟨by simp [labels, Section.labels], fun id index => ?_⟩
    rw [labelsAt, labelsAt, List.getElem?_append]
    split
    · rfl
    · next beyond =>
      rw [List.getElem?_eq_none (Nat.le_of_not_lt beyond), List.getElem?_singleton]
      split
      · cases index <;> rfl
      · rfl

/-- Laying out a section moves no label. -/
theorem sameLabels_layoutSection {laid : Object} {layout : Layout}
    (success : object.layoutSection id = .ok (laid, layout)) : laid.SameLabels object := by
  obtain ⟨sect, found, lays, _⟩ := layoutSection_ok success
  obtain ⟨_, rfl⟩ := (layoutSection_eq_ok_iff found).mp success
  rw [List.set_eq_modify]
  have same : (object.modifySection id fun _ => layout.sect).SameLabels object := by
    apply sameLabels_modify
    intro before was
    obtain rfl := Option.some.inj (was.symm.trans found)
    exact Section.sameLabels_layout lays
  exact ⟨same.labels, same.labelsAt⟩

/-- A label that is added at the end of a section. -/
def addLabel (object : Object) (id : Nat) (label : SymbolId) : Object :=
  object.modifySection id fun sect => { sect with pending := sect.pending ++ [label] }

/-- A new label is one more label. -/
theorem labels_addLabel (found : object.sections[id]? = some sect) (label : SymbolId) :
    (object.addLabel id label).labels.Perm (label :: object.labels) := by
  unfold labels addLabel modifySection
  dsimp only
  generalize object.sections = sections at found
  induction sections generalizing id with
  | nil => cases found
  | cons first rest ih =>
    cases id with
    | zero =>
      simp only [List.modify_zero_cons, List.flatMap_cons]
      have own : ({ first with pending := first.pending ++ [label] } : Section).labels =
          first.labels ++ [label] := (List.append_assoc ..).symm
      rw [own, ← List.cons_append]
      exact List.Perm.append_right _ (List.perm_append_singleton label _)
    | succ id =>
      simp only [List.modify_succ_cons, List.flatMap_cons]
      exact (List.Perm.append_left _ (ih found)).trans List.perm_middle

/-- A new label is at the end of its section. -/
theorem mem_labelsAt_addLabel (found : object.sections[id]? = some sect) {other : SymbolId}
    {place index : Nat} :
    other ∈ (object.addLabel id label).labelsAt place index ↔
      other ∈ object.labelsAt place index ∨
        place = id ∧ index = sect.chunks.length ∧ other = label := by
  rw [labelsAt, labelsAt, addLabel, getElem?_modifySection]
  split
  · next here =>
    subst here
    simp only [found, Option.map_some, Option.getD_some, Section.mem_labelsAt_iff, List.mem_append,
      List.mem_singleton, true_and, and_or_left, or_assoc]
  · next elsewhere =>
    simp [show place ≠ id from fun same => elsewhere same.symm]

/-- A label that is accepted is added at the end of its section. -/
theorem defineLabel_accepted (found : object.sections[id]? = some sect) {name : String}
    {line : Int} :
    object.defineLabel id name line = (next, label, none) ↔
      ∃ table, object.table.define name (.label (sect.here id)) line = (table, label, none) ∧
        next = { object with table }.addLabel id label := by
  simp only [defineLabel, Object.define, found, Option.map_some, Option.getD_some]
  rcases object.table.define name (.label (sect.here id)) line with ⟨table, known, _ | error⟩
  · simp only [Prod.mk.injEq, and_true, addLabel]
    constructor
    · rintro ⟨rfl, rfl⟩
      exact ⟨table, ⟨rfl, rfl⟩, rfl⟩
    · rintro ⟨_, ⟨rfl, rfl⟩, rfl⟩
      exact ⟨rfl, rfl⟩
  · simp

/-- A label that is refused changes nothing. -/
theorem defineLabel_refused {name : String} {line : Int} {error : Error}
    (refused : object.defineLabel id name line = (next, label, some error)) : next = object := by
  unfold defineLabel at refused
  generalize ((object.sections[id]?).map fun sect => sect.here id).getD ⟨id, 0, 0⟩ = place
    at refused
  cases defined : object.table.define name (.label place) line with | mk table result =>
  obtain ⟨known, none | problem⟩ := result
  · simp [Object.define, defined] at refused
  · simp only [Object.define, defined] at refused
    cases refused
    obtain ⟨rfl, _⟩ := SymbolTable.define_refused_iff.mp defined
    rfl

end Object

/-! ### Labels of a table -/

/-- A symbol is the label of a position. -/
def SymbolTable.LabelAt (table : SymbolTable) (label : SymbolId) (place : Location) : Prop :=
  ∃ symbol, table.get? label = some symbol ∧ symbol.meaning = .label place

namespace SymbolTable

variable {table after : SymbolTable} {name : String} {id label : SymbolId} {place : Location}

/-- A new name is no label. -/
theorem labelAt_intern (table : SymbolTable) (name : String) :
    (table.intern name).1.LabelAt label place ↔ table.LabelAt label place := by
  unfold intern
  split
  · rfl
  · rcases exists_index_or_none label with ⟨index, rfl⟩ | absent
    · simp only [LabelAt, get?_succ, List.getElem?_append]
      split
      · rfl
      · next beyond =>
        rw [List.getElem?_eq_none (Nat.le_of_not_lt beyond), List.getElem?_singleton]
        split <;> simp
    · simp only [LabelAt, absent, reduceCtorEq, false_and]

/-- A definition adds at most one label. -/
theorem labelAt_define {meaning : Meaning} {line : Int}
    (accepted : table.define name meaning line = (after, id, none)) :
    after.LabelAt label place ↔
      table.LabelAt label place ∨ label = id ∧ meaning = .label place := by
  obtain ⟨known, _, undefined, others⟩ := define_ok accepted
  by_cases own : label = id
  · subst own
    have unlabelled : ¬ table.LabelAt label place := by
      rintro ⟨symbol, found, means⟩
      rw [undefined symbol found] at means
      cases means
    rw [or_iff_right unlabelled]
    simp [LabelAt, known]
  · simp [LabelAt, others label own, own]

end SymbolTable

namespace Object

/-- The names of symbols are distinct, every label is in one list only, and that is the list of its
position. -/
structure Consistent (object : Object) : Prop where
  distinct : object.table.Distinct
  once : object.labels.Nodup
  labelled_iff : ∀ label place, object.table.LabelAt label place ↔
    ∃ id index : Nat, place = ⟨id, index, 0⟩ ∧ label ∈ object.labelsAt id index

namespace Consistent

variable {object next : Object}

theorem empty (maxPasses : Int) : ({ maxPasses } : Object).Consistent where
  distinct := List.nodup_nil
  once := List.nodup_nil
  labelled_iff := by
    intro label place
    constructor
    · rintro ⟨symbol, found, _⟩
      obtain ⟨index, inRange, _⟩ := SymbolTable.get?_bounds found
      cases inRange
    · rintro ⟨id, index, _, member⟩
      cases member

/-- Consistency is a matter of the labels only. -/
theorem of_sameLabels (consistent : object.Consistent) (same : next.SameLabels object)
    (distinct : next.table.Distinct)
    (tables : ∀ label place, next.table.LabelAt label place ↔ object.table.LabelAt label place) :
    next.Consistent where
  distinct := distinct
  once := same.labels ▸ consistent.once
  labelled_iff := by
    intro label place
    simp only [tables, consistent.labelled_iff, same.labelsAt]

/-- A definition that is refused changes nothing, and one that is no label changes no list. -/
theorem define (consistent : object.Consistent) (name : String) {meaning : Meaning} (line : Int)
    (plain : ∀ place, meaning ≠ .label place) :
    (object.define name meaning line).1.Consistent := by
  refine consistent.of_sameLabels ⟨rfl, fun _ _ => rfl⟩ (consistent.distinct.define ..) ?_
  intro label place
  unfold Object.define
  cases defined : object.table.define name meaning line with | mk after result =>
  obtain ⟨id, error⟩ := result
  cases error with
  | none => simp [SymbolTable.labelAt_define defined, plain]
  | some error => rw [(SymbolTable.define_refused_iff.mp defined).1]

/-- A label is added to the list of its position. -/
theorem defineLabel (consistent : object.Consistent) {id : Nat} {sect : Section}
    (found : object.sections[id]? = some sect) (name : String) (line : Int) :
    (object.defineLabel id name line).1.Consistent := by
  cases result : object.defineLabel id name line with | mk next rest =>
  obtain ⟨label, none | error⟩ := rest
  · obtain ⟨after, defined, rfl⟩ := (defineLabel_accepted found).mp result
    obtain ⟨_, _, undefined, _⟩ := SymbolTable.define_ok defined
    -- What is in the lists already has a meaning, which the new label did not have.
    have new : label ∉ object.labels := by
      intro member
      obtain ⟨home, index, here⟩ := mem_labels_iff.mp member
      obtain ⟨symbol, known, means⟩ :=
        (consistent.labelled_iff label _).mpr ⟨home, index, rfl, here⟩
      rw [undefined symbol known] at means
      cases means
    have kept : ({ object with table := after } : Object).sections[id]? = some sect := found
    refine ⟨?_, ?_, fun other place => ?_⟩
    · have distinct := consistent.distinct.define name (.label (sect.here id)) line
      rw [defined] at distinct
      exact distinct
    · exact (labels_addLabel kept label).nodup_iff.mpr (List.nodup_cons.mpr ⟨new, consistent.once⟩)
    · have table : ({ object with table := after }.addLabel id label).table = after := rfl
      rw [table, SymbolTable.labelAt_define defined, consistent.labelled_iff]
      simp only [mem_labelsAt_addLabel kept, and_or_left, exists_or]
      refine or_congr Iff.rfl ?_
      constructor
      · rintro ⟨rfl, ⟨⟩⟩
        exact ⟨id, _, rfl, rfl, rfl, rfl⟩
      · rintro ⟨_, _, rfl, rfl, rfl, rfl⟩
        exact ⟨rfl, rfl⟩
  · rw [defineLabel_refused result]
    exact consistent

end Consistent

/-! ### Calls -/

end Object

/-- Whether the section that a call is about exists. -/
def Call.addressed (object : Object) : Call → Bool
  | .append id _ _ _ | .setRepeats id _ _ | .defineLabel id _ _ | .layoutSection id =>
    id < object.sections.length
  | .openSection _ | .symbol _ | .defineEqu _ _ _ | .declareExtern _ _ => true

namespace Object

/-- Whether each of some calls is about a section that exists by then. -/
def addressed : Object → List Call → Bool
  | _, [] => true
  | object, call :: rest =>
    call.addressed object &&
      match object.call call with
      | .ok next => next.addressed rest
      | .error _ => true

/-- Why a definition is refused. -/
def refusal (object : Object) : Call → Option Error
  | .defineLabel id name line => (object.defineLabel id name line).2.2
  | .defineEqu name body line => (object.define name (.equ body) line).2.2
  | .declareExtern name line => (object.define name .imported line).2.2
  | .openSection _ | .append .. | .setRepeats .. | .symbol _ | .layoutSection _ => none

variable {object next : Object} {call : Call} {calls : List Call}

/-- A call keeps an object consistent. -/
theorem Consistent.after_call (consistent : object.Consistent)
    (addressed : call.addressed object = true) (made : object.call call = .ok next) :
    next.Consistent := by
  cases call with
  | openSection name =>
    cases made
    have table : (object.openSection name).1.table = object.table := by
      unfold Object.openSection
      split <;> rfl
    exact consistent.of_sameLabels (object.sameLabels_openSection name)
      (table ▸ consistent.distinct) fun _ _ => by rw [table]
  | append id body line repeats =>
    cases made
    exact consistent.of_sameLabels
      (object.sameLabels_modify id fun sect _ => sect.sameLabels_append body line repeats)
      consistent.distinct fun _ _ => Iff.rfl
  | setRepeats id index repeats =>
    cases made
    exact consistent.of_sameLabels
      (object.sameLabels_modify id fun sect _ => sect.sameLabels_setRepeats index repeats)
      consistent.distinct fun _ _ => Iff.rfl
  | symbol name =>
    cases made
    exact consistent.of_sameLabels ⟨rfl, fun _ _ => rfl⟩ (consistent.distinct.intern name)
      fun _ _ => object.table.labelAt_intern name
  | defineLabel id name line =>
    cases made
    exact consistent.defineLabel (List.getElem?_eq_getElem (of_decide_eq_true addressed)) name line
  | defineEqu name body line =>
    cases made
    exact consistent.define name line (by simp)
  | declareExtern name line =>
    cases made
    exact consistent.define name line (by simp)
  | layoutSection id =>
    obtain ⟨layout, lays⟩ := exists_layout_of_call made
    have table := (layoutSection_frame lays).1
    exact consistent.of_sameLabels (sameLabels_layoutSection lays) (table ▸ consistent.distinct)
      fun _ _ => by rw [table]

/-- A call keeps symbols. -/
theorem lasts_of_call (made : object.call call = .ok next) : object.table.Lasts next.table := by
  cases call with
  | openSection name =>
    cases made
    unfold Object.openSection
    split <;> exact .refl _
  | append | setRepeats =>
    cases made
    exact .refl _
  | symbol name =>
    cases made
    exact object.table.lasts_intern name
  | defineLabel id name line =>
    cases made
    unfold Object.defineLabel Object.define
    dsimp only
    split
    · next defined =>
      obtain ⟨rfl, _⟩ := Prod.mk.inj defined
      exact object.table.lasts_define name _ line
    · exact object.table.lasts_define name _ line
  | defineEqu name body line =>
    cases made
    exact object.table.lasts_define name (.equ body) line
  | declareExtern name line =>
    cases made
    exact object.table.lasts_define name .imported line
  | layoutSection id =>
    obtain ⟨layout, lays⟩ := exists_layout_of_call made
    rw [(layoutSection_frame lays).1]
    exact .refl _

/-- Calls on sections that exist keep an object consistent. -/
theorem Consistent.after_run (consistent : object.Consistent)
    (addressed : object.addressed calls = true) (runs : object.run calls = .ok next) :
    next.Consistent := by
  induction calls generalizing object with
  | nil =>
    cases runs
    exact consistent
  | cons first rest ih =>
    obtain ⟨middle, made, runs⟩ := exists_of_bind_ok runs
    rw [Object.addressed, made, Bool.and_eq_true] at addressed
    exact ih (consistent.after_call addressed.1 made) addressed.2 runs

/-- Symbols keep their numbers, names and meanings in calls. -/
theorem lasts_of_run (runs : object.run calls = .ok next) : object.table.Lasts next.table := by
  induction calls generalizing object with
  | nil =>
    cases runs
    exact .refl _
  | cons first rest ih =>
    obtain ⟨middle, made, runs⟩ := exists_of_bind_ok runs
    exact (lasts_of_call made).trans (ih runs)

/-- A definition that is refused changes nothing. -/
theorem call_of_refusal {error : Error} (refused : object.refusal call = some error) :
    object.call call = .ok object := by
  have defined : ∀ {name meaning line}, (object.define name meaning line).2.2 = some error →
      (object.define name meaning line).1 = object := by
    intro name meaning line refused
    cases result : object.table.define name meaning line with | mk table rest =>
    obtain ⟨id, problem⟩ := rest
    simp only [Object.define, result] at refused ⊢
    subst refused
    obtain ⟨rfl, _⟩ := SymbolTable.define_refused_iff.mp result
    rfl
  cases call with
  | openSection | append | setRepeats | symbol | layoutSection => cases refused
  | defineLabel id name line =>
    cases result : object.defineLabel id name line with | mk after rest =>
    obtain ⟨label, problem⟩ := rest
    simp only [refusal, result] at refused
    subst refused
    rw [Object.call, result, defineLabel_refused result]
  | defineEqu | declareExtern => exact congrArg Except.ok (defined refused)

/-- Calls that lay nothing out always lead to an object. -/
theorem exists_run (object : Object) (plain : ∀ call ∈ calls, ∀ id, call ≠ .layoutSection id) :
    ∃ after, object.run calls = .ok after := by
  induction calls generalizing object with
  | nil => exact ⟨object, rfl⟩
  | cons first rest ih =>
    obtain ⟨notLayout, others⟩ := List.forall_mem_cons.mp plain
    obtain ⟨middle, made⟩ : ∃ middle, object.call first = .ok middle := by
      cases first with
      | layoutSection id => exact absurd rfl (notLayout id)
      | _ => exact ⟨_, rfl⟩
    obtain ⟨after, runs⟩ := ih middle others
    refine ⟨after, ?_⟩
    rw [run, List.foldlM_cons, made]
    exact runs

/-- Calls on sections that exist build an object in which names and numbers of symbols are each
other's inverse, and the numbers go from one up to how many symbols there are. Whatever is called
afterwards, a symbol keeps its number and its name and, once it has them, its meaning and its line.
A definition that is refused changes nothing. Every label is in exactly one list: in that of the
chunk at its position, or in that of the end if no chunk is there yet; and nothing else is in the
lists. -/
theorem symbols_and_labels_consistent (maxPasses : Int) {calls later : List Call}
    {object next : Object} (addressed : ({ maxPasses } : Object).addressed calls = true)
    (runs : ({ maxPasses } : Object).run calls = .ok object)
    (continues : object.run later = .ok next) :
    (∀ number : Int, (∃ symbol, object.table.get? number = some symbol) ↔
      1 ≤ number ∧ number ≤ object.table.symbols.length) ∧
    (∀ name id, object.table.find? name = some id ↔
      ∃ symbol, object.table.get? id = some symbol ∧ symbol.name = name) ∧
    (∀ id symbol, object.table.get? id = some symbol → ∃ late, next.table.get? id = some late ∧
      late.name = symbol.name ∧ (symbol.meaning ≠ .undefined → late = symbol)) ∧
    (∀ call error, object.refusal call = some error → object.call call = .ok object) ∧
    object.labels.Nodup ∧
    (∀ label place,
      (∃ symbol, object.table.get? label = some symbol ∧ symbol.meaning = .label place) ↔
        ∃ (id index : Nat) (sect : Section), place = ⟨id, index, 0⟩ ∧
          object.sections[id]? = some sect ∧
          ((∃ chunk, sect.chunks[index]? = some chunk ∧ label ∈ chunk.labels) ∨
            index = sect.chunks.length ∧ label ∈ sect.pending)) ∧
    ∀ more : List Call, (∀ call ∈ more, ∀ id, call ≠ .layoutSection id) →
      ∃ after, object.run more = .ok after := by
  have consistent := (Consistent.empty maxPasses).after_run addressed runs
  refine ⟨fun number => SymbolTable.exists_get?_iff,
    fun name id => consistent.distinct.find?_eq_some_iff, lasts_of_run continues,
    fun call error refused => call_of_refusal refused, consistent.once, fun label place => ?_,
    fun more => object.exists_run⟩
  simp only [← Section.mem_labelsAt_iff, exists_and_left, ← mem_labelsAt_iff]
  exact consistent.labelled_iff label place

end Object

/-- Labels of two sections, one of them referred to before it is defined and one defined twice,
between chunks and other definitions. -/
def interleaved : List Call :=
  [.symbol "far", .openSection "s", .openSection "t", .defineLabel 0 "a" 1, .defineLabel 1 "b" 2,
    .defineLabel 0 "c" 3, .append 0 (.data []) 4 none, .defineLabel 1 "a" 5, .defineEqu "b" {} 6,
    .declareExtern "x" 7, .append 1 (.data []) 8 none, .defineLabel 0 "far" 9,
    .layoutSection 0, .defineLabel 1 "d" 10, .append 1 (.data []) 11 none]

/-- The labels of `interleaved` are where they belong, also the one that a symbol waited for, and
what is defined twice changes nothing. -/
theorem interleaved_consistent :
    ∃ object, Object.run {} interleaved = .ok object ∧ object.labels = [2, 4, 1, 3, 6] ∧
      object.labels.Nodup ∧ object.table.find? "far" = some 1 ∧ object.table.nameOf 1 = "far" ∧
      (∃ symbol, object.table.get? 1 = some symbol ∧ symbol.meaning = .label ⟨0, 1, 0⟩) ∧
      object.refusal (.defineLabel 1 "a" 12) = some (.redefined "a" 1) ∧
      object.call (.defineLabel 1 "a" 12) = .ok object ∧
      ∀ label place,
        (∃ symbol, object.table.get? label = some symbol ∧ symbol.meaning = .label place) ↔
          ∃ (id index : Nat) (sect : Section), place = ⟨id, index, 0⟩ ∧
            object.sections[id]? = some sect ∧
            ((∃ chunk, sect.chunks[index]? = some chunk ∧ label ∈ chunk.labels) ∨
              index = sect.chunks.length ∧ label ∈ sect.pending) := by
  obtain ⟨object, runs, lists, found, named, label, refused⟩ :=
    exists_ok_of_any (Object.run {} interleaved)
      (p := fun object => object.labels = [2, 4, 1, 3, 6] ∧
        object.table.find? "far" = some 1 ∧ object.table.nameOf 1 = "far" ∧
        (object.table.get? 1).map Symbol.meaning = some (.label ⟨0, 1, 0⟩) ∧
        object.refusal (.defineLabel 1 "a" 12) = some (.redefined "a" 1))
      (by decide +kernel)
  have stops : object.run [] = .ok object := rfl
  obtain ⟨_, _, _, unchanged, once, placed, _⟩ :=
    Object.symbols_and_labels_consistent 0 (by decide +kernel) runs stops
  exact ⟨object, runs, lists, once, found, named, Option.map_eq_some_iff.mp label, refused,
    unchanged _ _ refused, placed⟩

end Assembler
