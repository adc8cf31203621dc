import Assembler.Placement
import Assembler.Proofs.Emission.Bare
import Mathlib.Data.List.Forall2

/-!
# Placed objects

Placing an object puts its sections one behind the other, those with bytes of a file first
(`place_ok`, `filedFirst`), and changes nothing but their bases. The sections are then
emitted one after the other. What one leaves behind is not read by the others, so each has the
program that it would have if it were emitted alone (`emitAll_ok`).
-/

namespace Assembler

variable {sect : Section} {id : Nat} {alignment : UInt64}

variable {order : List Nat} {output : Output}

/-- The address behind a section. -/
def Section.stop (sect : Section) : Nat := sect.base.toNat + sect.size.toNat

/-- A section without its address. -/
def Section.unbased (sect : Section) : Section := { sect with base := 0 }

/-- Sections one behind the other from an address on, up to the last address at most. -/
def Stacked : Nat → List Section → Prop
  | _, [] => True
  | address, sect :: rest =>
    address ≤ sect.base.toNat ∧ sect.stop < 2 ^ 64 ∧ Stacked sect.stop rest

namespace Stacked

variable {address : Nat} {sections : List Section}

/-- Sections that are stacked lie behind the address that they start from. -/
theorem le_base (stacked : Stacked address sections) (member : sect ∈ sections) :
    address ≤ sect.base.toNat := by
  induction sections generalizing address with
  | nil => cases member
  | cons first rest ih =>
    obtain ⟨start, _, others⟩ := stacked
    rcases List.mem_cons.mp member with rfl | later
    · exact start
    · have behind := ih others later
      have reaches : first.base.toNat ≤ first.stop := Nat.le_add_right _ _
      omega

/-- Sections that are stacked end at one of the addresses. -/
theorem stop_lt (stacked : Stacked address sections) (member : sect ∈ sections) :
    sect.stop < 2 ^ 64 := by
  induction sections generalizing address with
  | nil => cases member
  | cons first rest ih =>
    obtain ⟨_, limit, others⟩ := stacked
    rcases List.mem_cons.mp member with rfl | later
    · exact limit
    · exact ih others later

end Stacked

/-- The address behind the last of some sections; the one that they start from if there are none. -/
def stackEnd : Nat → List Section → Nat
  | address, [] => address
  | _, sect :: rest => stackEnd sect.stop rest

/-- Stacked sections end where the last of them does. -/
theorem stackEnd_eq_getLast? (address : Nat) (sections : List Section) :
    stackEnd address sections = (sections.getLast?.map Section.stop).getD address := by
  induction sections generalizing address with
  | nil => rfl
  | cons sect rest ih =>
    rw [stackEnd, ih, List.getLast?_cons]
    cases rest.getLast? <;> rfl

namespace Stacked

variable {address : Nat} {sections : List Section}

/-- Stacked sections end behind the address that they start from. -/
theorem le_stackEnd (stacked : Stacked address sections) : address ≤ stackEnd address sections := by
  induction sections generalizing address with
  | nil => exact Nat.le_refl _
  | cons sect rest ih =>
    obtain ⟨start, _, others⟩ := stacked
    calc
      address ≤ sect.base.toNat := start
      _ ≤ sect.stop := Nat.le_add_right _ _
      _ ≤ stackEnd sect.stop rest := ih others

/-- Stacked sections end where the last of them does. -/
theorem stop_le (stacked : Stacked address sections) (member : sect ∈ sections) :
    sect.stop ≤ stackEnd address sections := by
  induction sections generalizing address with
  | nil => cases member
  | cons first rest ih =>
    obtain ⟨_, _, others⟩ := stacked
    rcases List.mem_cons.mp member with rfl | later
    · exact others.le_stackEnd
    · exact ih others later

end Stacked

/-- Sections with bytes of a file stand before the others. -/
def FiledFirst (sections : List Section) : Prop :=
  sections.Pairwise fun first second => first.noBits = true → second.noBits = true

namespace Object

variable {object placed : Object}

/-- Every section is placed once. -/
theorem placementOrder_perm (object : Object) :
    object.placementOrder.Perm (List.range object.sections.length) := by
  have parts := (List.filter_append_perm (fun entry : Section × Nat => !entry.1.noBits)
    object.sections.zipIdx).map Prod.snd
  rw [List.map_append, List.zipIdx_map_snd, ← List.range_eq_range'] at parts
  simpa [placementOrder] using parts

/-- Sections with bytes of a file are placed before the others. -/
theorem exists_placementOrder (object : Object) :
    ∃ filed reserved, object.placementOrder = filed ++ reserved ∧
      (∀ id ∈ filed, ∃ sect, object.sections[id]? = some sect ∧ sect.noBits = false) ∧
      ∀ id ∈ reserved, ∃ sect, object.sections[id]? = some sect ∧ sect.noBits = true := by
  have numbered : ∀ entry ∈ object.sections.zipIdx, object.sections[entry.2]? = some entry.1 :=
    fun entry member => List.mem_zipIdx_iff_getElem?.mp member
  refine ⟨_, _, rfl, ?_, ?_⟩
  · intro id member
    obtain ⟨entry, inPart, rfl⟩ := List.mem_map.mp member
    obtain ⟨among, filed⟩ := List.mem_filter.mp inPart
    exact ⟨entry.1, numbered entry among, by simpa using filed⟩
  · intro id member
    obtain ⟨entry, inPart, rfl⟩ := List.mem_map.mp member
    obtain ⟨among, reserved⟩ := List.mem_filter.mp inPart
    exact ⟨entry.1, numbered entry among, reserved⟩

/-- Sections in the order of their addresses have those with bytes of a file first. -/
theorem filedFirst (object : Object) :
    FiledFirst (object.placementOrder.filterMap fun id => object.sections[id]?) := by
  have alike : ∀ (ids : List Nat) (noBits : Bool),
      (∀ id ∈ ids, ∃ sect, object.sections[id]? = some sect ∧ sect.noBits = noBits) →
      ∀ sect ∈ ids.filterMap (fun id => object.sections[id]?), sect.noBits = noBits := by
    intro ids noBits each sect member
    obtain ⟨id, among, found⟩ := List.mem_filterMap.mp member
    obtain ⟨other, isOther, same⟩ := each id among
    obtain rfl := Option.some.inj (found.symm.trans isOther)
    exact same
  obtain ⟨filed, reserved, order, areFiled, areReserved⟩ := object.exists_placementOrder
  have first := alike filed false areFiled
  have second := alike reserved true areReserved
  rw [order, List.filterMap_append]
  refine List.pairwise_append.mpr ⟨?_, ?_, fun _ _ other member _ => second other member⟩
  · apply List.pairwise_of_forall_mem_list
    intro sect member _ _ noBits
    rw [first sect member] at noBits
    cases noBits
  · exact List.pairwise_of_forall_mem_list fun _ _ other member _ => second other member

/-- Every number in the order is that of a section. -/
theorem exists_of_mem_placementOrder (member : id ∈ object.placementOrder) :
    ∃ sect, object.sections[id]? = some sect := by
  have inRange := List.mem_range.mp (object.placementOrder_perm.mem_iff.mp member)
  exact ⟨_, List.getElem?_eq_getElem inRange⟩

/-- The bases of sections do not decide their order. -/
theorem placementOrder_eq
    (alike : placed.sections.map Section.unbased = object.sections.map Section.unbased) :
    placed.placementOrder = object.placementOrder := by
  have unbased : ∀ other : Object, other.placementOrder =
      { other with sections := other.sections.map Section.unbased }.placementOrder := by
    intro other
    simp only [placementOrder, List.zipIdx_map, List.filter_map, List.map_map]
    rfl
  rw [unbased placed, unbased object, placementOrder, placementOrder, alike]

/-- What holds of all sections, whatever their bases, holds of them when they are placed. -/
theorem forall_of_unbased {holds : Section → Prop}
    (unbased : ∀ sect, holds sect.unbased ↔ holds sect)
    (alike : placed.sections.map Section.unbased = object.sections.map Section.unbased)
    (each : ∀ sect ∈ object.sections, holds sect) : ∀ sect ∈ placed.sections, holds sect := by
  intro sect member
  have among : sect.unbased ∈ object.sections.map Section.unbased :=
    alike ▸ List.mem_map_of_mem member
  obtain ⟨before, wasThere, same⟩ := List.mem_map.mp among
  rw [← unbased, ← same, unbased]
  exact each before wasThere

/-- A section at another address is the same without it. -/
theorem map_unbased_modify (object : Object) (id : Nat) (base : UInt64) :
    (object.modifySection id fun sect => { sect with base }).sections.map Section.unbased =
      object.sections.map Section.unbased := by
  apply List.ext_getElem?
  intro place
  rw [modifySection, List.getElem?_map, List.getElem?_map, List.getElem?_modify]
  cases object.sections[place]? with
  | none => rfl
  | some sect => by_cases here : id = place <;> simp [here, Section.unbased]

/-- A base that is not refused leaves room for the section behind the address. -/
theorem fits_of_not_refused {address base size : UInt64}
    (fits : ¬ (decide (base < address) || decide (0xffffffffffffffff - size < base)) = true) :
    address.toNat ≤ base.toNat ∧ base.toNat + size.toNat < 2 ^ 64 ∧
      (base + size).toNat = base.toNat + size.toNat := by
  simp only [Bool.or_eq_true, decide_eq_true_eq, not_or, UInt64.not_lt] at fits
  obtain ⟨above, room⟩ := fits
  have word := size.toNat_lt
  have limit : base.toNat ≤ 0xffffffffffffffff - size.toNat := by
    have below := UInt64.le_iff_toNat_le.mp room
    rwa [UInt64.toNat_sub_of_le _ _ (UInt64.le_iff_toNat_le.mpr (by
      change size.toNat ≤ 2 ^ 64 - 1
      omega))] at below
  refine ⟨UInt64.le_iff_toNat_le.mp above, by omega, ?_⟩
  rw [UInt64.toNat_add, Nat.mod_eq_of_lt (by omega)]

/-- Sections that are placed are stacked in their order, and nothing else changes. -/
theorem placeFrom_ok {address : UInt64} (distinct : order.Nodup)
    (success : placeFrom alignment address order object = (placed, none)) :
    placed = { object with sections := placed.sections } ∧
      placed.sections.map Section.unbased = object.sections.map Section.unbased ∧
      (∀ id, id ∉ order → placed.sections[id]? = object.sections[id]?) ∧
      Stacked address.toNat (order.filterMap fun id => placed.sections[id]?) := by
  induction order generalizing object address with
  | nil =>
    cases success
    exact ⟨rfl, rfl, fun _ _ => rfl, trivial⟩
  | cons id rest ih =>
    obtain ⟨absent, others⟩ := List.nodup_cons.mp distinct
    rw [placeFrom] at success
    cases found : object.sections[id]? with
    | none =>
      simp only [found] at success
      obtain ⟨same, bases, kept, stacked⟩ := ih others success
      refine ⟨same, bases, fun other outside => kept other ?_, ?_⟩
      · exact fun inRest => outside (List.mem_cons_of_mem _ inRest)
      · rwa [List.filterMap_cons_none (by rw [kept id absent, found])]
    | some sect =>
      simp only [found] at success
      split at success
      · cases success
      · next fits =>
        obtain ⟨same, bases, kept, stacked⟩ := ih others success
        have here : placed.sections[id]? =
            some { sect with base := alignUp address alignment } := by
          rw [kept id absent, modifySection, List.getElem?_modify_eq, found]
          rfl
        refine ⟨same, bases.trans (map_unbased_modify object id _), fun other outside => ?_, ?_⟩
        · have different : id ≠ other := by
            rintro rfl
            exact outside List.mem_cons_self
          rw [kept other fun inRest => outside (List.mem_cons_of_mem _ inRest), modifySection]
          exact List.getElem?_modify_ne _ _ different
        · rw [List.filterMap_cons_some here]
          obtain ⟨above, limit, ends⟩ := fits_of_not_refused fits
          refine ⟨above, limit, ?_⟩
          rwa [ends] at stacked

/-- An object that was placed has all its sections stacked in their order, from the start on. Only
their bases have changed. -/
theorem place_ok {start : UInt64}
    (success : object.place start alignment = (placed, .ok order)) :
    order = object.placementOrder ∧ placed = { object with sections := placed.sections } ∧
      placed.sections.map Section.unbased = object.sections.map Section.unbased ∧
      Stacked start.toNat (order.filterMap fun id => placed.sections[id]?) := by
  unfold place at success
  split at success
  · cases success
  · split at success
    · cases success
    · split at success
      · next result =>
        cases success
        obtain ⟨same, bases, _, stacked⟩ := placeFrom_ok
          (object.placementOrder_perm.nodup_iff.mpr List.nodup_range) result
        exact ⟨rfl, same, bases, stacked⟩
      · cases success

/-- No section is placed twice. -/
theorem nodup_of_place {start : UInt64}
    (success : object.place start alignment = (placed, .ok order)) : order.Nodup := by
  rw [(place_ok success).1, object.placementOrder_perm.nodup_iff]
  exact List.nodup_range

/-- Emitting a section changes its relocations and the reports only. -/
theorem emitSection_frame {emitted : Emitted}
    (success : object.emitSection output id = .ok emitted) :
    emitted.object.bare = object.bare ∧
      ∀ other, other ≠ id → emitted.object.sections[other]? = object.sections[other]? := by
  unfold emitSection at success
  obtain ⟨sect, _, success⟩ := exists_of_bind_ok success
  split at success
  · cases success
    exact ⟨rfl, fun _ _ => rfl⟩
  · split at success
    · cases success
      exact ⟨rfl, fun _ _ => rfl⟩
    · obtain ⟨emission, _, same⟩ := exists_of_bind_ok success
      cases same
      constructor
      · simp only [bare, modifySection, Object.mk.injEq, true_and, and_true]
        apply List.ext_getElem?
        intro place
        rw [List.getElem?_map, List.getElem?_map, List.getElem?_modify]
        cases object.sections[place]? with
        | none => rfl
        | some other => by_cases here : id = place <;> simp [here, Section.bare]
      · intro other different
        exact List.getElem?_modify_ne _ _ different.symm

/-- The program that a section has when it is emitted alone. -/
def Emits (object : Object) (output : Output) (id : Nat) (program : Program) : Prop :=
  ∃ emitted, object.emitSection output id = .ok emitted ∧ emitted.program = .ok program

/-- Programs do not depend on reports and on the relocations of other sections. -/
theorem Emits.alike {other : Object} {program : Program}
    (emits : other.Emits output id program) (alike : other.bare = object.bare)
    (same : other.sections[id]? = object.sections[id]?) : object.Emits output id program := by
  obtain ⟨emitted, success, accepted⟩ := emits
  have equal := @emitSection_alike object output other id alike (congrArg _ same)
  unfold Emits
  rw [success] at equal
  cases result : object.emitSection output id with
  | error reference => simp [result, Except.map] at equal
  | ok here =>
    simp only [result, Except.map, Except.ok.injEq, Prod.mk.injEq] at equal
    exact ⟨here, rfl, equal.2.symm.trans accepted⟩

/-- Sections that are emitted one after the other without an error have the programs that they have
alone. -/
theorem emitEach_ok (distinct : order.Nodup) {last : Object} {requests : List Request}
    {programs : List Program}
    (success : emitEach output order object = .ok (last, requests, programs, [])) :
    last.bare = object.bare ∧ List.Forall₂ (object.Emits output) order programs := by
  induction order generalizing object requests programs with
  | nil =>
    cases success
    exact ⟨rfl, .nil⟩
  | cons id rest ih =>
    obtain ⟨absent, others⟩ := List.nodup_cons.mp distinct
    obtain ⟨emitted, emits, success⟩ := exists_of_bind_ok success
    obtain ⟨⟨final, more, later, errors⟩, continues, success⟩ := exists_of_bind_ok success
    dsimp only at success
    split at success
    · next program accepted =>
      cases success
      obtain ⟨alike, kept⟩ := emitSection_frame emits
      obtain ⟨same, each⟩ := ih others continues
      refine ⟨same.trans alike, .cons ⟨emitted, emits, accepted⟩ ?_⟩
      have elsewhere : ∀ other ∈ rest,
          emitted.object.sections[other]? = object.sections[other]? := by
        intro other member
        apply kept
        rintro rfl
        exact absent member
      refine ((List.forall₂_and_left rest _).mpr ⟨elsewhere, each⟩).imp ?_
      rintro other program ⟨unchanged, alone⟩
      exact alone.alike alike unchanged
    · cases success

/-- Emitting sections without an error gives the programs that they have alone, in order. -/
theorem emitAll_ok (distinct : order.Nodup) {last : Object} {programs : List Program}
    (success : object.emitAll output order = .ok (last, .ok programs)) :
    last.bare = object.bare ∧ List.Forall₂ (object.Emits output) order programs := by
  obtain ⟨⟨final, requests, each, errors⟩, emits, success⟩ := exists_of_bind_ok success
  dsimp only at success
  split at success
  · cases success
  · next silent =>
    cases success
    rw [Error.all_eq_none_iff.mp silent] at emits
    exact emitEach_ok distinct emits

end Object

end Assembler
