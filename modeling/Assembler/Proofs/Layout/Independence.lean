import Assembler.Proofs.Layout.Sections

/-!
# Sections do not disturb each other

What becomes of a section is its own affair. It depends neither on the order in which the sections
are laid out nor on what the other sections hold, and not on where the section itself will lie:
positions of other sections stay symbolic in every field, and no distance is measured across
sections. `section_layouts_independent` says so of whole objects, also when some sections fail.
-/

namespace Assembler

/-- A section at another base, with or without bytes of a file. -/
def Section.moved (sect : Section) (base : UInt64) (noBits : Bool) : Section :=
  { sect with base, noBits }

/-- The layout of a section at another base, with or without bytes of a file. -/
def Layout.moved (layout : Layout) (base : UInt64) (noBits : Bool) : Layout :=
  { layout with sect := layout.sect.moved base noBits }

/-- Where a section will lie has no part in its layout. -/
theorem Section.layout_moved (sect : Section) (base : UInt64) (noBits : Bool)
    (table : SymbolTable) (maxPasses : Int) (id : Nat) :
    (sect.moved base noBits).layout table maxPasses id =
      (sect.layout table maxPasses id).map (·.moved base noBits) := by
  unfold Section.layout
  change (prepareAll table id 0 sect.chunks >>= _) = _
  cases prepareAll table id 0 sect.chunks <;> rfl

variable {object : Object}

/-- What laying out a section gives beside the object is the layout of the section alone. -/
theorem layoutSection_snd {sect : Section} {id : Nat} (found : object.sections[id]? = some sect) :
    (object.layoutSection id).map Prod.snd = sect.layout object.table object.maxPasses id := by
  rw [layoutSection_eq found]
  cases sect.layout object.table object.maxPasses id <;> rfl

/-- A section in other surroundings and at another place has the layout that it had. -/
theorem layoutSection_elsewhere {elsewhere : Object} {id : Nat} {sect : Section} {base : UInt64}
    {noBits : Bool} (found : object.sections[id]? = some sect)
    (table : elsewhere.table = object.table) (limit : elsewhere.maxPasses = object.maxPasses)
    (again : elsewhere.sections[id]? = some (sect.moved base noBits)) :
    (elsewhere.layoutSection id).map Prod.snd =
      ((object.layoutSection id).map Prod.snd).map (·.moved base noBits) := by
  rw [layoutSection_snd found, layoutSection_snd again, table, limit, Section.layout_moved]

/-- When every section is laid out, each is replaced. -/
theorem layoutSections_all {order : List Nat} {outcome : Nat → Layout}
    (once : order.Perm (List.range object.sections.length))
    (each : ∀ id < object.sections.length,
      (object.layoutSection id).map Prod.snd = .ok (outcome id)) :
    object.layoutSections order =
      .ok ({ object with
        sections := object.sections.mapIdx fun id _ => (outcome id).sect
        diagnostics := object.diagnostics ++ order.flatMap fun id => (outcome id).diagnostics },
        order.map outcome) := by
  have members : ∀ id, id ∈ order ↔ id < object.sections.length :=
    fun id => once.mem_iff.trans List.mem_range
  have lays : ∀ id ∈ order, ∃ sect, object.sections[id]? = some sect ∧
      sect.layout object.table object.maxPasses id = .ok (outcome id) := by
    intro id member
    have inRange := (members id).mp member
    have found := List.getElem?_eq_getElem inRange
    exact ⟨_, found, (layoutSection_snd found).symm.trans (each id inRange)⟩
  have replaced : object.sections.mapIdx
        (fun id sect => if id ∈ order then (outcome id).sect else sect) =
      object.sections.mapIdx fun id _ => (outcome id).sect := by
    apply List.ext_getElem
    · simp
    · intro id inRange _
      rw [List.length_mapIdx] at inRange
      simp [(members id).mpr inRange]
  rw [layoutSections_eq (once.nodup_iff.mpr List.nodup_range) lays, replaced]

/-- If the sections of an object can be laid out in some order, each once, then in every order they
end with the same layouts, and the reports of a section are the same; only the order of the reports
follows that of the sections. The layout of a section is what it would be among any other sections,
at any base and with or without bytes of a file. -/
theorem section_layouts_independent (object : Object) :
    (∀ (order : List Nat) (laid : Object) (layouts : List Layout),
      order.Perm (List.range object.sections.length) →
      object.layoutSections order = .ok (laid, layouts) →
        ∃ outcome : Nat → Layout,
          (∀ id < object.sections.length,
            (object.layoutSection id).map Prod.snd = .ok (outcome id)) ∧
          ∀ other : List Nat, other.Perm (List.range object.sections.length) →
            object.layoutSections other =
              .ok ({ object with
                sections := object.sections.mapIdx fun id _ => (outcome id).sect
                diagnostics := object.diagnostics ++
                  other.flatMap fun id => (outcome id).diagnostics },
                other.map outcome)) ∧
      ∀ (elsewhere : Object) (id : Nat) (sect : Section) (base : UInt64) (noBits : Bool),
        object.sections[id]? = some sect → elsewhere.table = object.table →
        elsewhere.maxPasses = object.maxPasses →
        elsewhere.sections[id]? = some (sect.moved base noBits) →
          (elsewhere.layoutSection id).map Prod.snd =
            ((object.layoutSection id).map Prod.snd).map (·.moved base noBits) := by
  constructor
  · intro order laid layouts once success
    obtain ⟨_, _, each⟩ := layoutSections_ok (once.nodup_iff.mpr List.nodup_range) success
    obtain ⟨outcome, lays⟩ := exists_outcome fun id member => by
      obtain ⟨sect, layout, _, found, result, _⟩ := each id member
      exact ⟨sect, layout, found, result⟩
    have alone : ∀ id < object.sections.length,
        (object.layoutSection id).map Prod.snd = .ok (outcome id) := by
      intro id inRange
      obtain ⟨sect, found, result⟩ := lays id (once.mem_iff.mpr (List.mem_range.mpr inRange))
      exact (layoutSection_snd found).trans result
    exact ⟨outcome, alone, fun other again => layoutSections_all again alone⟩
  · intro elsewhere id sect base noBits found table limit again
    exact layoutSection_elsewhere found table limit again

/-- Two sections that refer to each other, and fail both: an integer that spells a distance of the
other section, and padding that cannot reach back. -/
def crossing : Object where
  sections :=
    [{ name := ".text"
       chunks :=
        [{ body := .branch (Machine.jmp (.ofLocation ⟨1, 1, 0⟩)) },
          { body := .leb128
              { number := { terms := [⟨-1, .place ⟨1, 0, 0⟩⟩, ⟨1, .place ⟨1, 1, 0⟩⟩] }
                signed := false } },
          { body := .align { boundary := .ofInt 16 } }] },
      { name := ".data"
        chunks :=
        [{ body := .data [.field { expr := .ofLocation ⟨0, 2, 0⟩, width := 64 }] },
          { body := .org { start := .ofInt 4 } }] }]

/-- The sections that refer to each other end alike in both orders, with a report each, and the
first one also when it is alone and has another base. -/
theorem crossing_layouts_independent :
    ∃ outcome : Nat → Layout,
      (outcome 0).diagnostics.length = 1 ∧ (outcome 1).diagnostics.length = 1 ∧
      (∀ order : List Nat, order = [0, 1] ∨ order = [1, 0] → ∃ laid,
        crossing.layoutSections order = .ok (laid, order.map outcome) ∧
          laid.sections = [(outcome 0).sect, (outcome 1).sect] ∧
          laid.diagnostics = order.flatMap fun id => (outcome id).diagnostics) ∧
      ∃ sect, crossing.sections[0]? = some sect ∧
        (({ sections := [sect.moved 0x400000 true] } : Object).layoutSection 0).map Prod.snd =
          .ok ((outcome 0).moved 0x400000 true) := by
  obtain ⟨⟨laid, layouts⟩, success, reports⟩ :=
    exists_ok_of_any (crossing.layoutSections [0, 1])
      (p := fun result => result.2.map (fun layout => layout.diagnostics.length) = [1, 1])
      (by decide +kernel)
  obtain ⟨ordered, moved⟩ := section_layouts_independent crossing
  obtain ⟨outcome, alone, every⟩ := ordered [0, 1] laid layouts (by decide) success
  have first := every [0, 1] (by decide)
  rw [success, Except.ok.injEq, Prod.mk.injEq] at first
  obtain ⟨zero, one⟩ : (outcome 0).diagnostics.length = 1 ∧ (outcome 1).diagnostics.length = 1 := by
    simpa [first.2] using reports
  obtain ⟨sect, found⟩ : ∃ sect, crossing.sections[0]? = some sect := ⟨_, rfl⟩
  refine ⟨outcome, zero, one, ?_, sect, found, ?_⟩
  · rintro order (rfl | rfl)
    · exact ⟨_, every _ (by decide), rfl, rfl⟩
    · exact ⟨_, every _ (by decide), rfl, rfl⟩
  · rw [moved { sections := [sect.moved 0x400000 true] } 0 sect 0x400000 true found rfl rfl rfl,
      alone 0 (by decide)]
    rfl

end Assembler
