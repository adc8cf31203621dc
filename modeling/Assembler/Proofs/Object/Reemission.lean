import Assembler.Proofs.Format.Placement
import Assembler.Proofs.Object.History
import Assembler.Proofs.Reloc.Order

/-!
# Emitting again

Emission leaves relocations and reports behind. It reads neither, and the relocations that a section
of a built object has recorded are in the order of their offsets (`Object.Built.ordered`), where
recording the same ones again changes nothing. So a section is emitted a second time with the same
outcome, and its relocations stay (`Object.emitSection_repeats`).
-/

namespace Assembler

variable {id : Nat} {output : Output}

namespace Object

/-- Every section has its relocations in the order of their offsets. -/
def Ordered (object : Object) : Prop := ∀ sect ∈ object.sections, Reloc.Ordered sect.relocs

namespace Ordered

variable {object next : Object}

variable (ordered : object.Ordered)
include ordered

/-- A change of one section that keeps its relocations in order. -/
theorem modify (id : Nat) {change : Section → Section}
    (kept : ∀ sect, Reloc.Ordered sect.relocs → Reloc.Ordered (change sect).relocs) :
    (object.modifySection id change).Ordered := by
  intro sect member
  obtain ⟨place, found⟩ := List.mem_iff_getElem?.mp member
  rw [getElem?_modifySection] at found
  split at found
  · obtain ⟨before, wasThere, rfl⟩ := Option.map_eq_some_iff.mp found
    exact kept before (ordered before (List.mem_of_getElem? wasThere))
  · exact ordered sect (List.mem_of_getElem? found)

/-- Placing keeps relocations in order. -/
theorem placeFrom (alignment address : UInt64) (order : List Nat) :
    (Object.placeFrom alignment address order object).1.Ordered := by
  induction order generalizing object address with
  | nil => exact ordered
  | cons id rest ih =>
    rw [Object.placeFrom]
    split
    · exact ih ordered address
    · dsimp only
      split
      · exact ordered
      · refine ih (ordered.modify id ?_) _
        exact fun _ kept => kept

/-- A layout keeps relocations in order. -/
theorem layoutSection {layout : Layout}
    (success : object.layoutSection id = .ok (next, layout)) : next.Ordered := by
  obtain ⟨sect, _, success⟩ := exists_of_bind_ok success
  obtain ⟨result, lays, same⟩ := exists_of_bind_ok success
  cases same
  obtain ⟨prepared, _, same⟩ := exists_of_bind_ok lays
  cases same
  intro other member
  rcases List.mem_or_eq_of_mem_set member with before | rfl
  · exact ordered other before
  · exact List.Pairwise.nil

/-- Emitting keeps relocations in order. -/
theorem emitSection {emitted : Emitted}
    (success : object.emitSection output id = .ok emitted) : emitted.object.Ordered := by
  unfold Object.emitSection at success
  obtain ⟨sect, found, success⟩ := exists_of_bind_ok success
  split at success
  · cases success
    exact ordered
  · split at success
    · cases success
      exact ordered
    · obtain ⟨emission, _, same⟩ := exists_of_bind_ok success
      cases same
      have member : sect ∈ object.sections := by
        rw [getSection_natCast] at found
        split at found
        · next here =>
          cases found
          exact List.mem_of_getElem? here
        · cases found
      have recorded := Reloc.ordered_insertAll emission.relocs (ordered sect member)
      exact ordered.modify id fun _ _ => recorded

/-- Every operation keeps relocations in order. -/
theorem step (step : Step object next) : next.Ordered := by
  cases step with
  | limit | symbols => exact ordered
  | openSection name =>
    unfold Object.openSection
    split
    · exact ordered
    · intro sect member
      rcases List.mem_append.mp member with before | new
      · exact ordered sect before
      · rw [List.mem_singleton.mp new]
        exact List.Pairwise.nil
  | move id base noBits => exact ordered.modify id fun _ kept => kept
  | append id body line repeats => exact ordered.modify id fun _ kept => kept
  | setRepeats id index repeats => exact ordered.modify id fun _ kept => kept
  | defineLabel id name line =>
    unfold Object.defineLabel Object.define
    dsimp only
    split
    · next defined =>
      obtain ⟨rfl, _⟩ := Prod.mk.inj defined
      refine modify ?_ id ?_
      · exact ordered
      · exact fun _ kept => kept
    · exact ordered
  | layoutSection success => exact ordered.layoutSection success
  | addRelocs id relocs =>
    exact ordered.modify id fun _ kept => Reloc.ordered_insertAll relocs kept
  | emitSection success => exact ordered.emitSection success
  | place start alignment =>
    have placed := ordered.placeFrom alignment start object.placementOrder
    unfold Object.place
    split
    · exact ordered
    · split
      · exact ordered
      · split
        · next result => rwa [result] at placed
        · next result => rwa [result] at placed

end Ordered

variable {object : Object}

/-- The relocations of a built object are in order. -/
theorem Built.ordered (built : object.Built) : object.Ordered := by
  induction built with
  | refl =>
    intro sect member
    cases member
  | tail _ step ih => exact ih.step step

/-- An emission with more reports in its object. -/
def Emitted.report (emitted : Emitted) (reports : List Diagnostic) : Emitted :=
  { emitted with
    object :=
      { emitted.object with diagnostics := emitted.object.diagnostics ++ reports } }

/-- An emission that is recorded a second time adds nothing but its reports. -/
theorem ofEmission_again {sect : Section} {emission : Emission}
    (ordered : Reloc.Ordered sect.relocs) :
    let first := object.ofEmission sect id emission
    first.object.ofEmission { sect with relocs := Reloc.insertAll emission.relocs sect.relocs } id
      emission = first.report emission.diagnostics := by
  simp only [ofEmission, Emitted.report, Reloc.insertAll_insertAll emission.relocs ordered,
    modifySection, List.modify_modify_eq]
  rfl

/-- A section that was emitted is emitted again with the same outcome, up to its reports, which are
made once more. -/
theorem emitSection_again {first : Emitted} (ordered : object.Ordered)
    (success : object.emitSection output id = .ok first) :
    ∃ reports, first.object.diagnostics = object.diagnostics ++ reports ∧
      first.object.emitSection output id = .ok (first.report reports) := by
  have refused : first.object = object → ∃ reports,
      first.object.diagnostics = object.diagnostics ++ reports ∧
      first.object.emitSection output id = .ok (first.report reports) := by
    intro same
    refine ⟨[], ?_, ?_⟩
    · rw [same, List.append_nil]
    · rw [same, success, Emitted.report, List.append_nil]
  obtain ⟨alike, _⟩ := emitSection_frame success
  cases found : object.sections[id]? with
  | none =>
    rw [emitSection_missing output found] at success
    cases success
  | some sect =>
    rw [emitSection_eq output found] at success
    split at success
    · cases success
      exact refused rfl
    · next laidOut =>
      split at success
      · cases success
        exact refused rfl
      · next sane =>
        cases emits : object.emitChunks output sect id (List.range sect.chunks.length) with
        | error reference =>
          rw [emits] at success
          cases success
        | ok emission =>
          rw [emits] at success
          cases success
          have recorded : (object.ofEmission sect id emission).object.sections[id]? =
              some { sect with relocs := Reloc.insertAll emission.relocs sect.relocs } := by
            rw [ofEmission, getElem?_modifySection, if_pos rfl, found, Option.map_some]
          have chunks : (object.ofEmission sect id emission).object.emitChunks output
              { sect with relocs := Reloc.insertAll emission.relocs sect.relocs } id
              (List.range sect.chunks.length) = .ok emission := by
            rw [← emits]
            exact emitChunks_of_bare alike (by rfl)
          refine ⟨emission.diagnostics, rfl, ?_⟩
          rw [emitSection_eq output recorded, if_neg laidOut, if_neg sane, chunks, Except.map,
            ofEmission_again (ordered sect (List.mem_of_getElem? found))]

/-- A reference that dangles does so whatever was recorded. -/
theorem emitSection_dangles {left : Object} {reference : Dangling}
    (alike : left.bare = object.bare) (dangles : object.emitSection output id = .error reference) :
    left.emitSection output id = .error reference := by
  have view := congrArg (fun bare : Object => bare.sections[id]?) alike
  simp only [getElem?_bare] at view
  cases found : object.sections[id]? with
  | none =>
    rw [found, Option.map_none, Option.map_eq_none_iff] at view
    rw [emitSection_missing output found] at dangles
    rw [emitSection_missing output view, dangles]
  | some sect =>
    rw [found, Option.map_some, Option.map_eq_some_iff] at view
    obtain ⟨twin, there, twins⟩ := view
    obtain ⟨_, rfl⟩ := Section.exists_relocs twins
    rw [emitSection_eq output found] at dangles
    rw [emitSection_eq output there, emitChunks_of_bare alike twins]
    split at dangles
    · cases dangles
    · split at dangles
      · cases dangles
      · next started sane =>
        rw [if_neg started, if_neg sane]
        cases emits : object.emitChunks output sect id (List.range sect.chunks.length) with
        | error other =>
          rw [emits] at dangles
          cases dangles
          rfl
        | ok emission =>
          rw [emits] at dangles
          cases dangles

/-- Emitting a section of a built object a second time has the outcome of the first, whether that is
a program or an error: the same bytes, relocations and reports. The relocations that the section has
recorded stay as the first emission left them, and nothing else changes but the reports, of which
each emission adds the same ones. The relocations of a program are at increasing offsets. A
reference that dangles is met again, whatever had been recorded until it was met. -/
theorem emitSection_repeats (built : object.Built) (allowed : Bool) (id : Nat) :
    (∀ first, object.emitSection (.standard object.table allowed) id = .ok first →
      ∃ second reports,
        first.object.emitSection (.standard first.object.table allowed) id = .ok second ∧
        second.program = first.program ∧ second.requests = first.requests ∧
        second.object.sections = first.object.sections ∧
        first.object.bare = object.bare ∧ second.object.bare = object.bare ∧
        (∀ other, other ≠ id → first.object.sections[other]? = object.sections[other]?) ∧
        first.object.diagnostics = object.diagnostics ++ reports ∧
        second.object.diagnostics = first.object.diagnostics ++ reports ∧
        ∀ program, first.program = .ok program → Reloc.Ordered program.relocs) ∧
    ∀ reference, object.emitSection (.standard object.table allowed) id = .error reference →
      ∀ left : Object, left.bare = object.bare →
        left.emitSection (.standard left.table allowed) id = .error reference := by
  constructor
  · intro first success
    obtain ⟨reports, diagnostics, again⟩ := emitSection_again built.ordered success
    obtain ⟨alike, elsewhere⟩ := emitSection_frame success
    have table : first.object.bare.table = object.bare.table := congrArg Object.table alike
    change first.object.table = object.table at table
    rw [← table] at again
    refine ⟨_, reports, again, rfl, rfl, rfl, alike, alike, elsewhere, diagnostics, rfl, ?_⟩
    intro program accepted
    cases found : object.sections[id]? with
    | none =>
      rw [emitSection_missing _ found] at success
      cases success
    | some sect =>
      obtain ⟨_, _, emission, _, _, relocs, _⟩ := emitSection_ok found success accepted
      rw [relocs]
      exact Reloc.ordered_insertAll _ (built.ordered sect (List.mem_of_getElem? found))
  · intro reference dangles left alike
    have table : left.bare.table = object.bare.table := congrArg Object.table alike
    change left.table = object.table at table
    rw [table]
    exact emitSection_dangles alike dangles

end Object

/-- An import's address and a number that does not fit, twice. -/
def overfull : Object :=
  { (({} : Object).openSection ".text").1 with
    table := { symbols := [{ name := "x", meaning := .imported }] } }.append 0
    (.data [.field { expr := .ofSymbol 1, width := 32 },
      .field { expr := .ofInt 300, width := 8 }]) 1 (some (.ofInt 2))

/-- Relocations from elsewhere, one of them where the second copy has its import. -/
def foreignRelocs : List Reloc :=
  [{ offset := 5, symbol := 1, addend := 7, width := 32 },
    { offset := 7, symbol := 1, addend := 0, width := 8 }]

/-- A section with relocations from elsewhere is emitted twice: the relocation of the second copy
takes the place of the one that was there, and stays there. Each time both copies are cut off with a
warning. -/
theorem overfull_repeats :
    ∃ laid layouts, overfull.layout = .ok (laid, layouts) ∧
      let filled := laid.modifySection 0 fun sect => sect.addRelocs foreignRelocs
      ∃ first second program,
        filled.emitSection (.standard filled.table true) 0 = .ok first ∧
        first.object.emitSection (.standard first.object.table true) 0 = .ok second ∧
        first.program = .ok program ∧ second.program = .ok program ∧
        second.object.sections = first.object.sections ∧
        program.code = [0, 0, 0, 0, 44, 0, 0, 0, 0, 44] ∧
        program.relocs.map (fun reloc => (reloc.offset, reloc.addend)) = [(0, 0), (5, 0), (7, 0)] ∧
        Reloc.Ordered program.relocs ∧
        first.object.diagnostics.length = 2 ∧ second.object.diagnostics.length = 4 := by
  obtain ⟨⟨laid, layouts⟩, lays, fresh, emits⟩ := exists_ok_of_any overfull.layout
    (p := fun result => result.1.diagnostics = [] ∧
      (((result.1.modifySection 0 fun sect => sect.addRelocs foreignRelocs).emitSection
        (.standard result.1.table true) 0).toOption.any fun first =>
          first.object.diagnostics.length = 2 ∧ (first.program.toOption.any fun program =>
            program.code = [0, 0, 0, 0, 44, 0, 0, 0, 0, 44] ∧
            program.relocs.map (fun reloc => (reloc.offset, reloc.addend)) =
              [(0, 0), (5, 0), (7, 0)]) = true) = true)
    (by decide +kernel)
  obtain ⟨first, success, warned, holds⟩ := exists_ok_of_any _ emits
  obtain ⟨program, accepted, code, relocs⟩ := exists_ok_of_any _ holds
  have opened : Object.Built _ :=
    ((Relation.ReflTransGen.refl.tail (.openSection ".text")).tail
      (.symbols { symbols := [{ name := "x", meaning := .imported }] })).tail
      (.append 0 (.data [.field { expr := .ofSymbol 1, width := 32 },
        .field { expr := .ofInt 300, width := 8 }]) 1 (some (.ofInt 2)))
  have built : Object.Built _ := (opened.layoutSections lays).tail (.addRelocs 0 foreignRelocs)
  obtain ⟨second, reports, again, same, _, sections, _, _, _, once, twice, ordered⟩ :=
    (Object.emitSection_repeats built true 0).1 first success
  have reported : first.object.diagnostics = reports := by
    have none : laid.diagnostics = [] := fresh
    change first.object.diagnostics = laid.diagnostics ++ reports at once
    rw [once, none, List.nil_append]
  refine ⟨laid, layouts, lays, first, second, program, success, again, accepted,
    same.trans accepted, sections, code, relocs, ordered program accepted, warned, ?_⟩
  rw [twice, List.length_append, ← reported, warned]

end Assembler
