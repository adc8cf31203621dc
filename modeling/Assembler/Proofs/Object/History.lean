import Assembler.Placement
import Assembler.Proofs.Layout.Independence
import Mathlib.Logic.Relation

/-!
# What becomes of an object

An object is built by operations, in any order (`Object.Built`). `Object.Step.stepAt` says what an
operation can make of a section. A section that counts as laid out without a problem still has what
its last layout left in it: operations since then may have moved it, recorded relocations and
changed repeat counts, but not its chunks and their slots (`Object.Built.sound`).
-/

namespace Assembler

/-- A chunk without its repeat count. The count may be changed after a layout, and is not read
before the next one. -/
def Chunk.uncounted (chunk : Chunk) : Chunk := { chunk with repeats := none }

/-- A section has the chunks and the size of another, up to repeat counts. -/
structure Section.Keeps (sect laid : Section) : Prop where
  chunks : sect.chunks.map Chunk.uncounted = laid.chunks.map Chunk.uncounted
  size : sect.size = laid.size

namespace Section.Keeps

theorem refl (sect : Section) : sect.Keeps sect := ⟨rfl, rfl⟩

theorem symm {sect laid : Section} (keeps : sect.Keeps laid) : laid.Keeps sect :=
  ⟨keeps.chunks.symm, keeps.size.symm⟩

theorem trans {sect middle laid : Section} (first : sect.Keeps middle)
    (second : middle.Keeps laid) : sect.Keeps laid :=
  ⟨first.chunks.trans second.chunks, first.size.trans second.size⟩

end Section.Keeps

/-- A repeat count is no part of what a layout leaves. -/
theorem Section.keeps_setRepeats (sect : Section) (index : Nat) (repeats : Expr) :
    (sect.setRepeats index repeats).Keeps sect where
  chunks := by
    apply List.ext_getElem?
    intro place
    rw [Section.setRepeats, List.getElem?_map, List.getElem?_map, List.getElem?_modify]
    cases sect.chunks[place]? with
    | none => rfl
    | some chunk => by_cases here : index = place <;> simp [here, Chunk.uncounted]
  size := rfl

/-- A section that no layout and no new chunk has touched. -/
structure Section.Stays (sect before : Section) : Prop extends sect.Keeps before where
  laidOut : sect.laidOut = before.laidOut
  failed : sect.failed = before.failed

namespace Section.Stays

theorem refl (sect : Section) : sect.Stays sect := ⟨.refl sect, rfl, rfl⟩

theorem trans {sect middle before : Section} (first : sect.Stays middle)
    (second : middle.Stays before) : sect.Stays before :=
  ⟨first.toKeeps.trans second.toKeeps, first.laidOut.trans second.laidOut,
    first.failed.trans second.failed⟩

/-- A section with the same chunks, size and flags stays. -/
theorem of_eq {sect : Section} (before : Section) (chunks : sect.chunks = before.chunks)
    (size : sect.size = before.size) (laidOut : sect.laidOut = before.laidOut)
    (failed : sect.failed = before.failed) : sect.Stays before :=
  ⟨⟨by rw [chunks], size⟩, laidOut, failed⟩

end Section.Stays

/-- A section has what a layout without an error left in it. -/
def Section.Sound (sect : Section) (id : Nat) : Prop :=
  ∃ (laid : Section) (table : SymbolTable), laid.Clean table id ∧ sect.Keeps laid

namespace Object

/-- Every section that counts as laid out without a problem has what a layout left in it. -/
def Sound (object : Object) : Prop :=
  ∀ (id : Nat) (sect : Section), object.sections[id]? = some sect → sect.laidOut = true →
    sect.failed = false → sect.Sound id

/-- The operations on an object. -/
inductive Step (object : Object) : Object → Prop where
  | limit (maxPasses : Int) : Step object { object with maxPasses }
  /-- Names get numbers and meanings. -/
  | symbols (table : SymbolTable) : Step object { object with table }
  | openSection (name : String) : Step object (object.openSection name).1
  | move (id : Nat) (base : UInt64) (noBits : Bool) :
    Step object (object.modifySection id fun sect => sect.moved base noBits)
  | append (id : Nat) (body : Body) (line : Int) (repeats : Option Expr) :
    Step object (object.append id body line repeats)
  | setRepeats (id index : Nat) (repeats : Expr) :
    Step object (object.modifySection id fun sect => sect.setRepeats index repeats)
  | defineLabel (id : Nat) (name : String) (line : Int) :
    Step object (object.defineLabel id name line).1
  | layoutSection {id : Nat} {laid : Object} {layout : Layout}
    (success : object.layoutSection id = .ok (laid, layout)) : Step object laid
  | addRelocs (id : Nat) (relocs : List Reloc) :
    Step object (object.modifySection id fun sect => sect.addRelocs relocs)
  | emitSection {output : Output} {id : Nat} {emitted : Emitted}
    (success : object.emitSection output id = .ok emitted) : Step object emitted.object
  | place (start alignment : UInt64) : Step object (object.place start alignment).1

/-- The objects that operations build from the empty one. -/
def Built (object : Object) : Prop := Relation.ReflTransGen Step {} object

/-- What an operation can make of the section with a number. -/
inductive StepAt (object : Object) (id : Nat) : Option Section → Option Section → Prop where
  | absent : StepAt object id none none
  | opened (name : String) : StepAt object id none (some { name })
  | appended (sect : Section) (body : Body) (line : Int) (repeats : Option Expr) :
    StepAt object id (some sect) (some (sect.append body line repeats))
  | laidOut {sect : Section} {layout : Layout}
    (lays : sect.layout object.table object.maxPasses id = .ok layout) :
    StepAt object id (some sect) (some layout.sect)
  | stays {sect after : Section} (stays : after.Stays sect) :
    StepAt object id (some sect) (some after)

/-- An object has the sections of another, with their layouts. -/
def Stays (next object : Object) : Prop :=
  ∀ id : Nat, Option.Rel Section.Stays next.sections[id]? object.sections[id]?

variable {object next : Object}

theorem Stays.refl (object : Object) : object.Stays object := by
  intro id
  cases object.sections[id]? with
  | none => exact .none
  | some sect => exact .some (.refl sect)

theorem Stays.trans {middle : Object} (first : next.Stays middle) (second : middle.Stays object) :
    next.Stays object := by
  intro id
  have later := first id
  have earlier := second id
  generalize next.sections[id]? = after at later ⊢
  generalize middle.sections[id]? = between at later earlier
  generalize object.sections[id]? = before at earlier ⊢
  cases later with
  | none =>
    cases earlier with
    | none => exact .none
  | some stays =>
    cases earlier with
    | some stayed => exact .some (stays.trans stayed)

/-- A section that stays is one of the things that an operation can make of it. -/
theorem Stays.stepAt (stays : next.Stays object) (id : Nat) :
    object.StepAt id object.sections[id]? next.sections[id]? := by
  have here := stays id
  generalize next.sections[id]? = after at here ⊢
  generalize object.sections[id]? = before at here ⊢
  cases here with
  | none => exact .absent
  | some stays => exact .stays stays

/-- The sections after a change of one of them. -/
theorem getElem?_modifySection (object : Object) (id place : Nat) (change : Section → Section) :
    (object.modifySection id change).sections[place]? =
      if id = place then (object.sections[place]?).map change else object.sections[place]? := by
  rw [modifySection, List.getElem?_modify, Option.map_eq_map]
  split
  · rfl
  · exact congrFun Option.map_id _

/-- A change of one section that does not touch its layout. -/
theorem stays_modify (object : Object) (id : Nat) {change : Section → Section}
    (stays : ∀ sect, (change sect).Stays sect) : (object.modifySection id change).Stays object := by
  intro place
  rw [getElem?_modifySection]
  split
  · cases object.sections[place]? with
    | none => exact .none
    | some sect => exact .some (stays sect)
  · exact Stays.refl object place

/-- Placing leaves layouts alone. -/
theorem stays_placeFrom (object : Object) (alignment address : UInt64) (order : List Nat) :
    (placeFrom alignment address order object).1.Stays object := by
  induction order generalizing object address with
  | nil => exact .refl object
  | cons id rest ih =>
    rw [placeFrom]
    split
    · exact ih object address
    · dsimp only
      split
      · exact .refl object
      · refine (ih _ _).trans (object.stays_modify id ?_)
        exact fun sect => .of_eq sect rfl rfl rfl rfl

/-- An emission records relocations and reports only. -/
theorem stays_emitSection {output : Output} {id : Nat} {emitted : Emitted}
    (success : object.emitSection output id = .ok emitted) : emitted.object.Stays object := by
  unfold Object.emitSection at success
  obtain ⟨found, _, success⟩ := exists_of_bind_ok success
  split at success
  · cases success
    exact .refl object
  · split at success
    · cases success
      exact .refl object
    · obtain ⟨emission, _, same⟩ := exists_of_bind_ok success
      cases same
      have stays : (object.modifySection id fun sect =>
          { sect with relocs := Reloc.insertAll emission.relocs found.relocs }).Stays object :=
        object.stays_modify id fun sect => .of_eq sect rfl rfl rfl rfl
      exact stays

/-- Every operation makes one of these of every section. -/
theorem Step.stepAt (step : Step object next) (id : Nat) :
    object.StepAt id object.sections[id]? next.sections[id]? := by
  cases step with
  | limit | symbols => exact (Stays.refl object).stepAt id
  | openSection name =>
    unfold Object.openSection
    split
    · exact (Stays.refl object).stepAt id
    · dsimp only
      rw [List.getElem?_append]
      split
      · exact (Stays.refl object).stepAt id
      · next beyond =>
        rw [List.getElem?_eq_none (Nat.not_lt.mp beyond), List.getElem?_singleton]
        split
        · exact .opened name
        · exact .absent
  | move home base noBits =>
    refine (object.stays_modify home ?_).stepAt id
    exact fun sect => .of_eq sect rfl rfl rfl rfl
  | append home body line repeats =>
    rw [Object.append, getElem?_modifySection]
    split
    · cases object.sections[id]? with
      | none => exact .absent
      | some sect => exact .appended sect body line repeats
    · exact (Stays.refl object).stepAt id
  | setRepeats home index repeats =>
    exact (object.stays_modify home fun sect =>
      ⟨sect.keeps_setRepeats index repeats, rfl, rfl⟩).stepAt id
  | defineLabel home name line =>
    refine Stays.stepAt ?_ id
    unfold Object.defineLabel Object.define
    dsimp only
    split
    · next defined =>
      obtain ⟨rfl, _⟩ := Prod.mk.inj defined
      refine stays_modify object home ?_
      exact fun sect => .of_eq sect rfl rfl rfl rfl
    · exact .refl object
  | @layoutSection home _ _ success =>
    obtain ⟨sect, found, lays, recorded, _⟩ := layoutSection_ok success
    by_cases here : id = home
    · subst here
      rw [found, recorded]
      exact .laidOut lays
    · rw [(layoutSection_frame success).2.2 id here]
      exact (Stays.refl object).stepAt id
  | addRelocs home relocs =>
    refine (object.stays_modify home ?_).stepAt id
    exact fun sect => .of_eq sect rfl rfl rfl rfl
  | emitSection success => exact (stays_emitSection success).stepAt id
  | place start alignment =>
    refine Stays.stepAt ?_ id
    unfold Object.place
    split
    · exact .refl object
    · split
      · exact .refl object
      · have placed := object.stays_placeFrom alignment start object.placementOrder
        split
        · next result => rwa [result] at placed
        · next result => rwa [result] at placed

/-- Every operation keeps an object sound. -/
theorem Sound.step (sound : object.Sound) (step : Step object next) : next.Sound := by
  intro id sect found laidOut sane
  have change := step.stepAt id
  rw [found] at change
  generalize was : object.sections[id]? = before at change
  cases change with
  | opened | appended => cases laidOut
  | laidOut lays =>
    exact ⟨_, object.table, clean_layout lays ((error_eq_none_iff lays).mpr sane), .refl _⟩
  | stays stays =>
    obtain ⟨laid, table, clean, kept⟩ :=
      sound id _ was (stays.laidOut ▸ laidOut) (stays.failed ▸ sane)
    exact ⟨laid, table, clean, stays.toKeeps.trans kept⟩

/-- Layouts of several sections are operations too. -/
theorem Built.layoutSections (built : object.Built) {ids : List Nat} {layouts : List Layout}
    (success : object.layoutSections ids = .ok (next, layouts)) : next.Built := by
  induction ids generalizing object layouts with
  | nil =>
    cases success
    exact built
  | cons id rest ih =>
    obtain ⟨⟨laid, layout⟩, lays, success⟩ := exists_of_bind_ok success
    obtain ⟨⟨last, others⟩, continues, same⟩ := exists_of_bind_ok success
    cases same
    exact ih (built.tail (.layoutSection lays)) continues

/-- A section that counts as laid out without a problem has what its last layout left in it,
whatever was done since. -/
theorem Built.sound (built : object.Built) : object.Sound := by
  induction built with
  | refl =>
    intro id sect found
    cases found
  | tail _ step ih => exact ih.step step

end Object

end Assembler
