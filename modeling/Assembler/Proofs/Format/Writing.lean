import Assembler.Proofs.Format.Segment
import Mathlib.Data.Nat.ModEq

/-!
# What writing an executable does

Writing an executable places the object, emits its sections and joins the programs, all of which is
said about the placed object (`write_ok`). Its sections and their programs are listed by their
numbers (`Object.Listed`).
-/

namespace Assembler

/-- A symbol with an address is a label. -/
theorem Object.symbolAddress_ok {object : Object} {id : SymbolId} {address : UInt64}
    (success : object.symbolAddress id = .ok (.ok address)) :
    ∃ symbol place, object.table.get id = .ok symbol ∧ symbol.meaning = .label place ∧
      object.locationAddress place = .ok address := by
  obtain ⟨symbol, isSymbol, success⟩ := exists_of_bind_ok success
  cases meaning : symbol.meaning with
  | label place =>
    simp only [meaning] at success
    obtain ⟨address, located, same⟩ := exists_of_bind_ok success
    cases same
    exact ⟨symbol, place, isSymbol, meaning, located⟩
  | _ =>
    simp only [meaning] at success
    cases success

/-- Sections and their programs by their numbers. -/
def Object.Listed (object : Object) (output : Output) :
    List Nat → List (Section × Program) → Prop :=
  List.Forall₂ fun id part => object.sections[id]? = some part.1 ∧ object.Emits output id part.2

namespace Object.Listed

variable {object : Object} {output : Output} {order : List Nat} {parts : List (Section × Program)}

/-- Programs with the sections that they were emitted from. -/
theorem of_emits {programs : List Program}
    (total : ∀ id ∈ order, ∃ sect, object.sections[id]? = some sect)
    (emits : List.Forall₂ (object.Emits output) order programs) :
    object.Listed output order ((order.filterMap fun id => object.sections[id]?).zip programs) ∧
      (((order.filterMap fun id => object.sections[id]?).zip programs).map Prod.fst =
        order.filterMap fun id => object.sections[id]?) := by
  induction emits with
  | nil => exact ⟨.nil, rfl⟩
  | @cons id program rest others here _ ih =>
    obtain ⟨⟨sect, found⟩, later⟩ := List.forall_mem_cons.mp total
    obtain ⟨listed, sections⟩ := ih later
    rw [List.filterMap_cons_some found, List.zip_cons_cons]
    exact ⟨.cons ⟨found, here⟩ listed, congrArg _ sections⟩

/-- Every part is a section with its program. -/
theorem exists_id (listed : object.Listed output order parts) {part : Section × Program}
    (member : part ∈ parts) :
    ∃ id, object.sections[id]? = some part.1 ∧ object.Emits output id part.2 := by
  induction listed with
  | nil => cases member
  | cons here _ ih =>
    rcases List.mem_cons.mp member with rfl | later
    · exact ⟨_, here⟩
    · exact ih later

/-- Every section in the order is a part. -/
theorem exists_part (listed : object.Listed output order parts) {id : Nat} (member : id ∈ order)
    {sect : Section} (found : object.sections[id]? = some sect) :
    ∃ program, (sect, program) ∈ parts ∧ object.Emits output id program := by
  induction listed with
  | nil => cases member
  | @cons first part rest others here _ ih =>
    rcases List.mem_cons.mp member with rfl | later
    · obtain rfl := Option.some.inj (found.symm.trans here.1)
      exact ⟨part.2, List.mem_cons_self, here.2⟩
    · obtain ⟨program, inRest, emits⟩ := ih later
      exact ⟨program, List.mem_cons_of_mem _ inRest, emits⟩

end Object.Listed

/-- A function that joins parts one by one does not tell parts from changed ones, if it does not at
the first of them. -/
theorem join_map_of_step {state part result : Type} {join : state → List part → result}
    {change : part → part}
    (step : ∀ bytes first rest other, (∀ next, join next rest = join next other) →
      join bytes (change first :: rest) = join bytes (first :: other))
    (bytes : state) (parts : List part) : join bytes (parts.map change) = join bytes parts := by
  induction parts generalizing bytes with
  | nil => rfl
  | cons first rest ih => exact step bytes first _ rest ih

namespace Elf

/-- The numbers of a segment without a problem. -/
theorem segment_of_problem_none {config : Elf} (sane : config.problem = none) :
    fileHeaderSize + programHeaderSize ≤ config.segmentOffset.toNat ∧
      config.segmentOffset.toNat ≡ config.baseAddress.toNat
        [MOD config.segmentAlignment.toNat] := by
  simp only [problem, ite_eq_right_iff, reduceCtorEq, imp_false, UInt64.not_lt, not_not,
    ite_eq_iff, and_false, false_or] at sane
  obtain ⟨room, _, _, above, congruent, _⟩ := sane
  have above := UInt64.le_iff_toNat_le.mp above
  refine ⟨UInt64.le_iff_toNat_le.mp room, (Nat.modEq_iff_dvd' above).mpr ?_⟩
  have remainder := congrArg UInt64.toNat congruent
  rw [UInt64.toNat_mod, UInt64.toNat_sub_of_le _ _ (UInt64.le_iff_toNat_le.mpr above)] at remainder
  exact Nat.dvd_of_mod_eq_zero remainder

section

variable (config : Elf) (object : Object) (order : List Nat)

/-- Joining programs does not read the relocations that the sections have recorded. -/
theorem join_bare (table : SymbolTable) (bytes : List UInt8) (parts : List (Section × Program)) :
    config.join table bytes (parts.map (Prod.map Section.bare id)) =
      config.join table bytes parts :=
  join_map_of_step (fun _ _ _ _ same => by simp only [join, Prod.map, Section.bare, id_eq, same]) ..

@[simp] theorem entryAddress_bare :
    config.entryAddress object.bare = config.entryAddress object := by
  simp only [entryAddress, Object.symbolAddress, Object.locationAddress_bare]
  rfl

/-- The bare sections are those of the bare object. -/
theorem map_bare_sections : (order.filterMap fun id => object.sections[id]?).map Section.bare =
    order.filterMap fun id => object.bare.sections[id]? := by
  simp only [List.map_filterMap, Object.getElem?_bare]

end

/-- Objects that differ in what emission leaves behind have the same sections without it. -/
theorem map_bare_of_alike {object other : Object} (alike : other.bare = object.bare)
    (order : List Nat) :
    (order.filterMap fun id => other.sections[id]?).map Section.bare =
      (order.filterMap fun id => object.sections[id]?).map Section.bare := by
  rw [map_bare_sections, map_bare_sections, alike]

/-- What was done to write a file: the object was placed, and its sections were emitted and joined.
Emission left nothing that was read. -/
theorem write_ok {given : Elf} {object written : Object} {file : List UInt8}
    (success : given.write object = .ok (written, .ok file)) :
    ∃ placed order programs content entry, given.withDefaults.problem = none ∧
      object.place given.withDefaults.baseAddress given.withDefaults.sectionAlign =
        (placed, .ok order) ∧
      written.bare = placed.bare ∧
      List.Forall₂ (placed.Emits (.standard placed.table true)) order programs ∧
      given.withDefaults.join placed.table []
        ((order.filterMap fun id => placed.sections[id]?).zip programs) = .ok (.ok content) ∧
      given.withDefaults.entryAddress placed = .ok (.ok entry) ∧
      file = given.withDefaults.file entry
        (((order.filterMap fun id => placed.sections[id]?).getLast?.map fun sect =>
          sect.base + sect.size).getD given.withDefaults.baseAddress) content := by
  unfold write at success
  dsimp only at success
  split at success
  · cases success
  · next sane =>
    split at success
    · cases success
    · next placed order places =>
      obtain ⟨⟨emitted, programs?⟩, emits, success⟩ := exists_of_bind_ok success
      cases programs? with
      | error error => cases success
      | ok programs =>
        dsimp only at success
        obtain ⟨content?, joins, success⟩ := exists_of_bind_ok success
        cases content? with
        | error error => cases success
        | ok content =>
          dsimp only at success
          obtain ⟨starts?, enters, success⟩ := exists_of_bind_ok success
          cases starts? with
          | error error => cases success
          | ok entry =>
            cases success
            obtain ⟨alike, each⟩ := Object.emitAll_ok (Object.nodup_of_place places) emits
            have table : written.bare.table = placed.table := by rw [alike, Object.bare]
            have sections := map_bare_of_alike alike order
            refine ⟨placed, order, programs, content, entry, sane, places, alike, each, ?_, ?_, ?_⟩
            · rw [← join_bare, ← List.zip_map_left, ← sections, List.zip_map_left, join_bare,
                ← table]
              exact joins
            · rw [← entryAddress_bare, ← alike, entryAddress_bare]
              exact enters
            · have ends := congrArg (fun list : List Section =>
                list.getLast?.map fun sect => sect.base + sect.size) sections
              simp only [List.getLast?_map, Option.map_map] at ends
              rw [show (order.filterMap fun id => placed.sections[id]?).getLast?.map
                (fun sect => sect.base + sect.size) = _ from ends.symm]
              rfl

/-- An object that is placed, emitted and joined, with an entry that is found, is written. -/
theorem write_eq {given : Elf} {object placed emitted : Object} {order : List Nat}
    {programs : List Program} {content : List UInt8} {entry : UInt64}
    (sane : given.withDefaults.problem = none)
    (places : object.place given.withDefaults.baseAddress given.withDefaults.sectionAlign =
      (placed, .ok order))
    (emits : placed.emitAll (.standard placed.table true) order = .ok (emitted, .ok programs))
    (joins : given.withDefaults.join placed.table []
      ((order.filterMap fun id => placed.sections[id]?).zip programs) = .ok (.ok content))
    (enters : given.withDefaults.entryAddress placed = .ok (.ok entry)) :
    given.write object = .ok (emitted, .ok (given.withDefaults.file entry
      (((order.filterMap fun id => placed.sections[id]?).getLast?.map fun sect =>
        sect.base + sect.size).getD given.withDefaults.baseAddress) content)) := by
  obtain ⟨alike, _⟩ := Object.emitAll_ok (Object.nodup_of_place places) emits
  have table : emitted.bare.table = placed.bare.table := by rw [alike]
  change emitted.table = placed.table at table
  have sections := map_bare_of_alike alike order
  have ends := congrArg (fun list : List Section =>
    list.getLast?.map fun sect => sect.base + sect.size) sections
  simp only [List.getLast?_map, Option.map_map] at ends
  rw [← join_bare, ← List.zip_map_left, ← sections, List.zip_map_left, join_bare, ← table] at joins
  rw [← entryAddress_bare, ← alike, entryAddress_bare] at enters
  simp only [write, sane, places, emits, joins, enters, bind, Except.bind, pure, Except.pure]
  rw [show (order.filterMap fun id => placed.sections[id]?).getLast?.map
    (fun sect => sect.base + sect.size) = _ from ends.symm]
  rfl

variable {config : Elf} {placed : Object} {entry : UInt64}

/-- Execution starts at the base address, or at the label that is named. -/
theorem entryAddress_ok (success : config.entryAddress placed = .ok (.ok entry)) :
    (config.entry = "" → entry = config.baseAddress) ∧
      (config.entry ≠ "" → ∃ id symbol place, placed.table.find? config.entry = some id ∧
        placed.table.get id = .ok symbol ∧ symbol.meaning = .label place ∧
        placed.locationAddress place = .ok entry) := by
  unfold entryAddress at success
  split at success
  · next unnamed =>
    cases success
    exact ⟨fun _ => rfl, fun named => absurd (String.isEmpty_iff.mp unnamed) named⟩
  · next named =>
    refine ⟨fun unnamed => absurd (String.isEmpty_iff.mpr unnamed) named, fun _ => ?_⟩
    split at success
    · cases success
    · next id found =>
      obtain ⟨address?, gives, success⟩ := exists_of_bind_ok success
      cases address? with
      | error error => cases success
      | ok address =>
        cases success
        obtain ⟨symbol, place, isSymbol, meaning, located⟩ := Object.symbolAddress_ok gives
        exact ⟨id, symbol, place, found, isSymbol, meaning, located⟩

/-- The address behind the last section, as a word. -/
theorem toNat_memoryEnd {start : UInt64} {sections : List Section}
    (stacked : Stacked start.toNat sections) :
    ((sections.getLast?.map fun sect => sect.base + sect.size).getD start).toNat =
      stackEnd start.toNat sections := by
  rw [stackEnd_eq_getLast?]
  cases last : sections.getLast? with
  | none => rfl
  | some sect =>
    have limit : sect.base.toNat + sect.size.toNat < 2 ^ 64 :=
      stacked.stop_lt (List.mem_of_getLast? last)
    change (sect.base + sect.size).toNat = sect.stop
    rw [UInt64.toNat_add, Nat.mod_eq_of_lt limit, Section.stop]

end Elf

end Assembler
