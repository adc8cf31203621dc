import Assembler.Proofs.Layout.Consistency
import Assembler.Proofs.Layout.Measures

/-!
# The layout of an object

Sections are laid out one after the other, and none reads what the layout of another left. The
layout of an object therefore exists exactly if that of each section does
(`exists_layoutSections`), and holds those of its sections (`layoutSections_ok`). Sections that can
be laid out each end with their own layouts, and the reports stand in the order in which the
sections were laid out (`layoutSections_eq`).
-/

namespace Assembler

variable {object laid : Object} {ids : List Nat} {layouts : List Layout}

/-- Laying out a section leaves the others, the symbols and the limit on passes as they are. -/
theorem layoutSection_frame {layout : Layout} {id : Nat}
    (success : object.layoutSection id = .ok (laid, layout)) :
    laid.table = object.table ∧ laid.maxPasses = object.maxPasses ∧
      ∀ other, other ≠ id → laid.sections[other]? = object.sections[other]? := by
  unfold Object.layoutSection at success
  obtain ⟨sect, _, success⟩ := exists_of_bind_ok success
  obtain ⟨result, _, same⟩ := exists_of_bind_ok success
  cases same
  exact ⟨rfl, rfl, fun other different => List.getElem?_set_ne different.symm⟩

/-- The layouts of sections that were laid out once each. -/
theorem layoutSections_ok (distinct : ids.Nodup)
    (success : object.layoutSections ids = .ok (laid, layouts)) :
    laid.table = object.table ∧
      (∀ id, id ∉ ids → laid.sections[id]? = object.sections[id]?) ∧
      ∀ id ∈ ids, ∃ sect, ∃ layout ∈ layouts, object.sections[id]? = some sect ∧
        sect.layout object.table object.maxPasses id = .ok layout ∧
        laid.sections[id]? = some layout.sect := by
  induction ids generalizing object layouts with
  | nil =>
    cases success
    exact ⟨rfl, fun _ _ => rfl, by simp⟩
  | cons first rest ih =>
    obtain ⟨absent, others⟩ := List.nodup_cons.mp distinct
    obtain ⟨⟨next, layout⟩, begins, success⟩ := exists_of_bind_ok success
    obtain ⟨⟨last, later⟩, continues, same⟩ := exists_of_bind_ok success
    cases same
    obtain ⟨sect, found, lays, recorded, _⟩ := layoutSection_ok begins
    obtain ⟨table, limit, kept⟩ := layoutSection_frame begins
    obtain ⟨lastTable, untouched, each⟩ := ih others continues
    refine ⟨lastTable.trans table, ?_, ?_⟩
    · intro id outside
      rw [List.mem_cons, not_or] at outside
      rw [untouched id outside.2, kept id outside.1]
    · intro id member
      rcases List.mem_cons.mp member with rfl | inRest
      · exact ⟨sect, layout, List.mem_cons_self, found, lays, by rw [untouched id absent, recorded]⟩
      · obtain ⟨other, result, among, otherAt, otherLays, otherRecorded⟩ := each id inRest
        have different : id ≠ first := fun same => absent (same ▸ inRest)
        rw [kept id different] at otherAt
        rw [table, limit] at otherLays
        exact ⟨other, result, List.mem_cons_of_mem _ among, otherAt, otherLays, otherRecorded⟩

/-- Laying out a section puts its layout into the place of the section. -/
theorem layoutSection_eq {sect : Section} {id : Nat} (found : object.sections[id]? = some sect) :
    object.layoutSection id =
      (sect.layout object.table object.maxPasses id).map fun layout =>
        ({ object with
          sections := object.sections.set id layout.sect
          diagnostics := object.diagnostics ++ layout.diagnostics }, layout) := by
  simp only [Object.layoutSection, Object.getSection, found, bind, Except.bind, pure, Except.pure]
  cases sect.layout object.table object.maxPasses id <;> rfl

/-- Elements may be replaced one after the other or all at once. -/
theorem mapIdx_set {α : Type} (elements : List α) (place : Nat) (value : Nat → α)
    (places : List Nat) :
    (elements.set place (value place)).mapIdx
        (fun index element => if index ∈ places then value index else element) =
      elements.mapIdx fun index element =>
        if index ∈ place :: places then value index else element := by
  apply List.ext_getElem?
  intro index
  simp only [List.getElem?_mapIdx, List.getElem?_set, List.mem_cons]
  by_cases here : place = index
  · subst here
    by_cases inRange : place < elements.length
    · simp [inRange]
    · simp [inRange]
  · have other : index ≠ place := Ne.symm here
    simp [here, other]

/-- Sections that are laid out once each end with their own layouts, whatever was laid out before
them. -/
theorem layoutSections_eq {outcome : Nat → Layout} (distinct : ids.Nodup)
    (each : ∀ id ∈ ids, ∃ sect, object.sections[id]? = some sect ∧
      sect.layout object.table object.maxPasses id = .ok (outcome id)) :
    object.layoutSections ids =
      .ok ({ object with
        sections := object.sections.mapIdx fun id sect =>
          if id ∈ ids then (outcome id).sect else sect
        diagnostics := object.diagnostics ++ ids.flatMap fun id => (outcome id).diagnostics },
        ids.map outcome) := by
  induction ids generalizing object with
  | nil =>
    have same : object.sections.mapIdx
        (fun id sect => if id ∈ [] then (outcome id).sect else sect) = object.sections := by
      simp [List.mapIdx_eq_iff]
    rw [same, List.flatMap_nil, List.append_nil]
    rfl
  | cons first rest ih =>
    obtain ⟨absent, others⟩ := List.nodup_cons.mp distinct
    obtain ⟨sect, found, lays⟩ := each first List.mem_cons_self
    have begins := layoutSection_eq found
    rw [lays] at begins
    simp only [Except.map] at begins
    obtain ⟨table, limit, kept⟩ := layoutSection_frame begins
    have continues := @ih _ others (by
      intro id member
      have different : id ≠ first := fun same => absent (same ▸ member)
      rw [kept id different, table, limit]
      exact each id (List.mem_cons_of_mem _ member))
    simp only [Object.layoutSections, begins, continues, bind, Except.bind, pure, Except.pure,
      List.append_assoc, List.flatMap_cons, List.map_cons]
    rw [mapIdx_set object.sections first (fun id => (outcome id).sect) rest]

/-- The layouts of sections as a function of their numbers. -/
theorem exists_outcome (each : ∀ id ∈ ids, ∃ sect layout, object.sections[id]? = some sect ∧
      sect.layout object.table object.maxPasses id = .ok layout) :
    ∃ outcome : Nat → Layout, ∀ id ∈ ids, ∃ sect, object.sections[id]? = some sect ∧
      sect.layout object.table object.maxPasses id = .ok (outcome id) := by
  have total : ∀ id, ∃ layout, id ∈ ids → ∃ sect, object.sections[id]? = some sect ∧
      sect.layout object.table object.maxPasses id = .ok layout := by
    intro id
    by_cases member : id ∈ ids
    · obtain ⟨sect, layout, found, lays⟩ := each id member
      exact ⟨layout, fun _ => ⟨sect, found, lays⟩⟩
    · exact ⟨⟨{ name := "" }, [], []⟩, fun inside => absurd inside member⟩
  choose outcome lays using total
  exact ⟨outcome, lays⟩

/-- Sections that can be laid out each can be laid out together. -/
theorem exists_layoutSections (distinct : ids.Nodup)
    (each : ∀ id ∈ ids, ∃ sect layout, object.sections[id]? = some sect ∧
      sect.layout object.table object.maxPasses id = .ok layout) :
    ∃ laid layouts, object.layoutSections ids = .ok (laid, layouts) := by
  obtain ⟨outcome, lays⟩ := exists_outcome each
  exact ⟨_, _, layoutSections_eq distinct lays⟩

end Assembler
