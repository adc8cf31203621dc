import Assembler.Proofs.Emission.Parallel

/-!
# What emission reads

Emission reads the symbols and the sections of an object, but neither the reports that the object
has gathered nor the relocations that its sections have recorded. `Object.bare` takes these away,
and every step of emission gives the same without them, so objects that are alike without them emit
alike (`emitSection_alike`).
-/

namespace Assembler

/-- A section without the relocations that it has recorded. -/
def Section.bare (sect : Section) : Section := { sect with relocs := [] }

/-- Sections that are alike without relocations differ in these only. -/
theorem Section.exists_relocs {sect twin : Section} (twins : twin.bare = sect.bare) :
    ∃ relocs, twin = { sect with relocs } := by
  obtain ⟨⟩ := twin
  obtain ⟨⟩ := sect
  simp_all [Section.bare]

namespace Object

/-- An object without its reports and without recorded relocations. -/
def bare (object : Object) : Object :=
  { object with sections := object.sections.map Section.bare, diagnostics := [] }

variable (object : Object) (output : Output)

/-- Without relocations, an object has the same sections without theirs. -/
theorem getElem?_bare (id : Nat) :
    object.bare.sections[id]? = (object.sections[id]?).map Section.bare :=
  List.getElem?_map ..

theorem getSection_bare (id : Int) :
    object.bare.getSection id = (object.getSection id).map Section.bare := by
  cases id with
  | negSucc _ => rfl
  | ofNat index =>
    simp only [getSection, getElem?_bare]
    cases object.sections[index]? <;> rfl

@[simp] theorem locationOffset_bare (location : Location) :
    object.bare.locationOffset location = object.locationOffset location := by
  simp only [locationOffset, getSection_bare]
  cases object.getSection location.sectionId <;> rfl

@[simp] theorem locationAddress_bare (location : Location) :
    object.bare.locationAddress location = object.locationAddress location := by
  simp only [locationAddress, getSection_bare]
  cases object.getSection location.sectionId <;> rfl

@[simp] theorem address_bare (expr : Expr) : object.bare.address expr = object.address expr := by
  simp only [address, locationAddress_bare]

@[simp] theorem emitField_bare (site : CopySite) (offset : UInt64) (field : Field)
    (room : List UInt8) :
    object.bare.emitField output site offset field room =
      object.emitField output site offset field room := by
  simp only [emitField, address_bare, locationAddress_bare, locationOffset_bare]
  rfl

variable {object output} {other : Object} {id : Nat}

/-- Objects that are alike without their reports and recorded relocations emit each chunk alike. -/
theorem emitChunk_of_bare (alike : other.bare = object.bare) (index : Nat) :
    other.emitChunk output id index = object.emitChunk output id index := by
  have found := congrArg (fun view : Object => view.sections[id]?) alike
  simp only [getElem?_bare] at found
  cases here : object.sections[id]? with
  | none =>
    rw [here, Option.map_none, Option.map_eq_none_iff] at found
    simp only [emitChunk, getSection_natCast, here, found]
    rfl
  | some sect =>
    rw [here, Option.map_some, Option.map_eq_some_iff] at found
    obtain ⟨twin, there, same⟩ := found
    obtain ⟨_, rfl⟩ := Section.exists_relocs same
    have fields : ∀ copy,
        FieldsParallel (fun _ => Eq) other object output output copy copy.chunk.fieldsAt :=
      fun copy entry _ room =>
        .of_eq (by rw [← emitField_bare, alike, emitField_bare]) fun _ _ => rfl
    exact (emitChunk_parallel .eq there here rfl rfl rfl fun chunk _ number _ =>
      emitCopy_parallel .eq (fields _) fun integer _ =>
        ⟨by rw [← address_bare, alike, address_bare], fun _ _ => rfl⟩).eq
          fun outcome => outcome.eq fun equal => equal

/-- Of its section, a chunk reads neither relocations nor anything that the reports change. -/
theorem emitChunks_of_bare (alike : other.bare = object.bare) {sect twin : Section}
    (twins : twin.bare = sect.bare) {indices : List Nat} :
    other.emitChunks output twin id indices = object.emitChunks output sect id indices := by
  obtain ⟨_, rfl⟩ := Section.exists_relocs twins
  refine Parallel.eq (emitChunks_parallel .eq ?_ ?_ ?_ (fun index _ => ?_) fun _ _ _ _ => rfl)
    fun equal => equal
  · rfl
  · rfl
  · rfl
  · exact .of_eq (emitChunk_of_bare alike index) fun _ _ => .of_eq rfl fun _ _ => rfl

/-- Objects that differ in their reports, and in the relocations that other sections have recorded,
emit a section alike. -/
theorem emitSection_alike (alike : other.bare = object.bare)
    (relocs : other.sections[id]?.map Section.relocs = object.sections[id]?.map Section.relocs) :
    (other.emitSection output id).map (fun emitted => (emitted.requests, emitted.program)) =
      (object.emitSection output id).map fun emitted => (emitted.requests, emitted.program) := by
  have found := congrArg (fun view : Object => view.sections[id]?) alike
  simp only [getElem?_bare] at found
  cases here : object.sections[id]? with
  | none =>
    rw [here, Option.map_none, Option.map_eq_none_iff] at found
    rw [emitSection_missing _ here, emitSection_missing _ found]
  | some sect =>
    rw [here, Option.map_some, Option.map_eq_some_iff] at found
    obtain ⟨twin, there, same⟩ := found
    obtain ⟨_, rfl⟩ := Section.exists_relocs same
    exact emitSection_parallel there here rfl rfl rfl rfl rfl (by simpa [here, there] using relocs)
      fun index _ => emitChunk_of_bare alike index

end Object

end Assembler
