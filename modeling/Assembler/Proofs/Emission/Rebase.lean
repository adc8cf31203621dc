import Assembler.Proofs.Emission.Agreement
import Assembler.Proofs.Emission.Parallel
import Assembler.Proofs.Expr.Value

/-!
# Distances at every base

Layout evaluates a field at the offsets of its section and knows no base; emission evaluates it at
addresses (`Object.resolve`). A distance has one value for both, at every base under which its
addresses do not wrap (`resolve_of_distance`). What is emitted for a field without a symbol depends
on that value only (`emitField_eq`), so chunks that hold distances are emitted alike at every base.
-/

namespace Assembler

variable {field : Field}

namespace Field

/-- What the coefficients of a field add up to, together with the one of the position that its value
counts from. -/
def weight (field : Field) : Int :=
  field.expr.coefficientSum - field.origin.elim 0 fun _ => 1

/-- The positions that a field refers to. -/
def locations (field : Field) : List Location := field.expr.places ++ field.origin.toList

variable {home : Nat} (distance : field.isDistanceIn home = true)
include distance

/-- The coefficients of a distance cancel as words, so those that add up to a word cancel. -/
theorem weight_eq_zero (word : isWord field.weight = true) : field.weight = 0 := by
  obtain ⟨positions, known, _, cancels⟩ := Field.isDistanceIn_iff.mp distance
  obtain ⟨_, places, terms, rfl⟩ := Field.positions_eq_some known
  have sum : field.weight = (((places ++ (field.origin.map fun location =>
      ((-1 : Int64), location)).toList).map Prod.fst).map Int64.toInt).sum := by
    rw [weight, Expr.coefficientSum, terms]
    cases field.origin with
    | none => simp [Function.comp_def]
    | some location =>
      have minus : (-1 : Int64).toInt = -1 := rfl
      simp [Function.comp_def, minus, Int.sub_eq_add_neg]
  rw [isWord_iff_toInt_ofInt, sum, ← sum_eq_ofInt, cancels] at word
  rw [sum, ← word]
  rfl

/-- A distance whose coefficients cancel refers to its target once, if it counts from a position,
and not at all otherwise. -/
theorem isWord_coefficientSum (word : isWord field.weight = true) :
    isWord field.expr.coefficientSum = true := by
  have cancels := weight_eq_zero distance word
  rw [weight, Int.sub_eq_zero] at cancels
  rw [cancels]
  cases field.origin <;> rfl

/-- A distance refers to positions in its section only. -/
theorem sectionId_of_mem_locations {location : Location} (member : location ∈ field.locations) :
    location.sectionId = home := by
  obtain ⟨positions, known, inside, _⟩ := Field.isDistanceIn_iff.mp distance
  obtain ⟨_, places, terms, rfl⟩ := Field.positions_eq_some known
  rcases List.mem_append.mp member with place | origin
  · rw [Expr.mem_places, terms] at place
    simp only [List.mem_map] at place
    obtain ⟨_, ⟨position, positionMember, rfl⟩, base⟩ := place
    cases base
    exact inside position (List.mem_append_left _ positionMember)
  · have counted : field.origin = some location := Option.mem_toList.mp origin
    exact inside (-1, location) (List.mem_append_right _ (by simp [counted]))

end Field

/-- No address that a field refers to wraps. -/
def Section.Locates (sect : Section) (field : Field) : Prop :=
  ∀ location ∈ field.locations, sect.base.toNat + (sect.offsetOf location).toNat < 2 ^ 64
deriving Decidable

namespace FieldSite

/-- The field of a site as its copy counts it: a position that is subtracted moves with the copy. -/
def counted (site : FieldSite) : Field :=
  { site.field with origin := site.field.origin.map site.copy.moveOrigin }

/-- What an output makes of a site whose field has a value. -/
def written (site : FieldSite) (output : Output) (room : List UInt8) (value : Int) : Emission :=
  let resolved : Field := { site.field with expr := .ofInt value, symbol := none, origin := none }
  let (bytes, error) := output.write resolved room site.field.check
  { bytes
    requests := [⟨resolved, none, site.place, site.field.check, room.length⟩]
    diagnostics := (error.map (site.copy.report site.field)).toList }

end FieldSite

namespace Object

/-- The object with another base for one of its sections. -/
def rebase (object : Object) (id : Nat) (base : UInt64) : Object :=
  object.modifySection id (·.rebase base)

/-- The value of a field at the addresses of an object: that of its expression, less the address
that it counts from. -/
def resolve (object : Object) (field : Field) : Except Dangling Int := do
  let sum ← object.address field.expr
  match field.origin with
  | none => return sum
  | some location => return sum - (← object.locationAddress location).toNat

/-- A field that counts from nowhere resolves to its address. -/
theorem resolve_of_origin_none (object : Object) (none : field.origin = none) :
    object.resolve field = object.address field.expr := by
  rw [resolve, none]
  cases object.address field.expr <;> rfl

/-- What is emitted for a field without a symbol depends on its value only. -/
theorem emitField_eq (object : Object) (output : Output) {site : FieldSite}
    (absent : site.field.symbol = none) (room : List UInt8) :
    object.emitField output site.copy site.offset site.field room =
      (object.resolve site.counted).map (site.written output room) := by
  unfold emitField resolve
  change (object.address site.field.expr >>= _) =
    Except.map _ (object.address site.field.expr >>= _)
  cases object.address site.field.expr with
  | error reference => rfl
  | ok sum =>
    simp only [bind, Except.bind, absent, FieldSite.counted]
    cases site.field.origin with
    | none =>
      simp only [Option.map_none, pure, Except.pure, Except.map, UInt64.toNat_zero, Nat.cast_zero,
        Int.sub_zero]
      rfl
    | some location =>
      simp only [Option.map_some]
      cases object.locationAddress (site.copy.moveOrigin location) <;> rfl

variable {object : Object} {sect : Section} {id : Nat}

/-- The value that emission finds for a distance is the one that layout found. -/
theorem resolve_of_distance (found : object.sections[id]? = some sect) {distance : Int64}
    (word : isWord field.weight = true)
    (measured : (sect.relaxed id).distance field = some distance) (locates : sect.Locates field) :
    object.resolve field = .ok distance.toInt := by
  obtain ⟨inside, value⟩ := Relaxation.distance_eq_some_iff.mp measured
  have sum := address_eq_exactValue found inside (Field.isWord_coefficientSum inside word)
    fun location member => locates location (List.mem_append_left _ member)
  rw [value] at sum
  rw [resolve, sum]
  cases counted : field.origin with
  | none => exact congrArg Except.ok (Int.add_zero _)
  | some location =>
    have member : location ∈ field.locations :=
      List.mem_append_right _ (Option.mem_toList.mpr counted)
    have start := locationAddress_of_section found (Field.sectionId_of_mem_locations inside member)
    have unwrapped : (sect.base + sect.offsetOf location).toNat =
        sect.base.toNat + (sect.offsetOf location).toNat := by
      rw [UInt64.toNat_add]
      exact Nat.mod_eq_of_lt (locates location member)
    simp [bind, Except.bind, start, unwrapped, pure, Except.pure]

theorem getElem?_rebase (found : object.sections[id]? = some sect) (base : UInt64) :
    (object.rebase id base).sections[id]? = some (sect.rebase base) :=
  (carries_rebase found base).found

end Object

/-- A chunk holds distances only: in each copy, every field can be measured inside the section, with
coefficients that add up to a word. -/
@[mk_iff]
structure Section.Floats (sect : Section) (id index : Nat) : Prop where
  weights : ∀ site ∈ sect.chunkSites id index, isWord site.counted.weight = true
  distances : ∀ site ∈ sect.chunkSites id index,
    ((sect.relaxed id).distance site.counted).isSome = true
  /-- An integer is emitted as it is, so it has to count from nothing. -/
  integers : ∀ chunk ∈ sect.chunks[index]?, ∀ integer ∈ chunk.body.integer?,
    integer.value.origin = none

/-- No address that a chunk refers to wraps at a base of its section. -/
def Section.LocatesAt (sect : Section) (base : UInt64) (id index : Nat) : Prop :=
  ∀ site ∈ sect.chunkSites id index, (sect.rebase base).Locates site.counted
deriving Decidable

instance (sect : Section) (id index : Nat) : Decidable (sect.Floats id index) :=
  decidable_of_iff _ (sect.floats_iff id index).symm

section

variable {object : Object} {sect : Section} {id index : Nat} {base another : UInt64}

/-- A field that is a distance in its copy is written with that distance, whatever the base. -/
theorem emitField_of_distance (found : object.sections[id]? = some sect) {site : FieldSite}
    {distance : Int64} (word : isWord site.counted.weight = true)
    (measured : (sect.relaxed id).distance site.counted = some distance)
    (locates : (sect.rebase base).Locates site.counted) (output : Output) (room : List UInt8) :
    (object.rebase id base).emitField output site.copy site.offset site.field room =
      .ok (site.written output room distance.toInt) := by
  obtain ⟨inside, _⟩ := Relaxation.distance_eq_some_iff.mp measured
  obtain ⟨positions, known, _⟩ := Field.isDistanceIn_iff.mp inside
  obtain ⟨absent, _⟩ := Field.positions_eq_some known
  rw [Object.emitField_eq _ output absent room,
    Object.resolve_of_distance (Object.getElem?_rebase found base) word measured locates]
  rfl

/-- A chunk that holds distances only is emitted alike at all bases. -/
theorem Section.Floats.emitChunk_eq (floats : sect.Floats id index)
    (found : object.sections[id]? = some sect)
    (locates : sect.LocatesAt base id index) (locatesOther : sect.LocatesAt another id index)
    (output : Output) :
    (object.rebase id base).emitChunk output id index =
      (object.rebase id another).emitChunk output id index := by
  refine (Object.emitChunk_parallel .eq (Object.getElem?_rebase found base)
    (Object.getElem?_rebase found another) rfl rfl rfl ?_).eq
      fun outcome => outcome.eq fun same => same
  intro chunk chunkAt number inRange
  have within : ∀ site ∈ (sect.copySite id index chunk number).sites,
      site ∈ sect.chunkSites id index :=
    fun site member => Section.mem_chunkSites.mpr ⟨chunk, chunkAt, number, inRange, member⟩
  apply Object.emitCopy_parallel .eq
  · intro entry member room
    have listed := within ⟨_, entry.1, entry.2⟩ (List.mem_map_of_mem member)
    obtain ⟨distance, measured⟩ := Option.isSome_iff_exists.mp (floats.distances _ listed)
    have emits := emitField_of_distance found (floats.weights _ listed) measured
      (locates _ listed) output room
    have emitsOther := emitField_of_distance found (floats.weights _ listed) measured
      (locatesOther _ listed) output room
    exact .of_eq (emits.trans emitsOther.symm) fun _ _ => rfl
  · intro integer isSome
    refine ⟨?_, fun _ _ => rfl⟩
    have isInteger : chunk.body = .leb128 integer := Body.integer?_eq_some.mp isSome
    have unmoved := floats.integers chunk chunkAt integer isSome
    have listed := within ⟨_, 0, integer.value⟩
      (List.mem_map.mpr ⟨(0, integer.value), by
        simp [Chunk.fieldsAt, Section.copySite, isInteger], rfl⟩)
    obtain ⟨distance, measured⟩ := Option.isSome_iff_exists.mp (floats.distances _ listed)
    have uncounted : (⟨sect.copySite id index chunk number, 0, integer.value⟩ :
        FieldSite).counted.origin = none := by
      rw [FieldSite.counted, unmoved]
      rfl
    have value := Object.resolve_of_distance (Object.getElem?_rebase found base)
      (floats.weights _ listed) measured (locates _ listed)
    have valueOther := Object.resolve_of_distance (Object.getElem?_rebase found another)
      (floats.weights _ listed) measured (locatesOther _ listed)
    rw [Object.resolve_of_origin_none _ uncounted] at value valueOther
    exact value.trans valueOther.symm

end

/-- Terms over positions are coefficients with positions. -/
theorem exists_places {terms : List Term}
    (located : ∀ term ∈ terms, ∃ location, term.base = .place location) :
    ∃ places : List (Int64 × Location),
      terms = places.map fun place => ⟨place.1, .place place.2⟩ := by
  induction terms with
  | nil => exact ⟨[], rfl⟩
  | cons term rest ih =>
    obtain ⟨⟨location, base⟩, others⟩ := List.forall_mem_cons.mp located
    obtain ⟨places, rfl⟩ := ih others
    exact ⟨(term.coefficient, location) :: places, by simp [← base]⟩

/-- A field whose terms are positions has these, and the one that it counts from. -/
theorem Field.positions_of_places (absent : field.symbol = none)
    {places : List (Int64 × Location)} (terms : field.expr.terms =
      places.map fun place => ⟨place.1, .place place.2⟩) :
    field.positions =
      some (places ++ (field.origin.map fun location => (-1, location)).toList) := by
  have mapped : ∀ (read : Term → Option (Int64 × Location)),
      (∀ place : Int64 × Location, read ⟨place.1, .place place.2⟩ = some place) →
      (places.map fun place => (⟨place.1, .place place.2⟩ : Term)).mapM read = some places := by
    intro read reads
    clear terms
    induction places with
    | nil => rfl
    | cons place rest ih =>
      rw [List.map_cons, List.mapM_cons, reads, ih]
      rfl
  unfold positions
  rw [absent, terms, mapped _ fun place => rfl]
  rfl

namespace Relaxation

/-- The offset of every position; symbols have none. -/
def offsets (state : Relaxation) : Base → Int
  | .place location => (offsetAmong state.slots state.size location).toNat
  | .symbol _ => 0

variable {state : Relaxation} (distance : field.expr.isDistance state.home = true)
  (absent : field.symbol = none) (uncounted : field.origin = none)
include distance absent uncounted

/-- An expression whose positions are in the section and cancel is a distance, and its value is the
one at the offsets, whatever they are. -/
theorem exactValue_of_isDistance :
    field.isDistanceIn state.home = true ∧
      state.exactValue field = field.expr.value state.offsets := by
  simp only [Expr.isDistance, Bool.and_eq_true, List.all_eq_true, beq_iff_eq] at distance
  obtain ⟨inside, cancels⟩ := distance
  obtain ⟨places, terms⟩ := exists_places fun term member => by
    have located := inside term member
    cases base : term.base with
    | place location => exact ⟨location, rfl⟩
    | symbol id => simp [base] at located
  have known := Field.positions_of_places absent terms
  rw [uncounted, Option.map_none, Option.toList_none, List.append_nil] at known
  constructor
  · refine Field.isDistanceIn_iff.mpr ⟨places, known, fun place member => ?_, ?_⟩
    · have located := inside ⟨place.1, .place place.2⟩ (terms ▸ List.mem_map_of_mem member)
      exact beq_iff_eq.mp located
    · rw [terms, List.map_map] at cancels
      exact cancels
  · rw [exactValue, known, Expr.value, terms, List.map_map]
    rfl

/-- The distance of such an expression is its value at the offsets, as long as that is a word. -/
theorem distance_of_isDistance :
    state.distance field =
      if isWord (field.expr.value state.offsets) then
        some (Int64.ofInt (field.expr.value state.offsets))
      else none := by
  obtain ⟨measurable, value⟩ := exactValue_of_isDistance distance absent uncounted
  rw [distance_eq, measurable, value, Bool.true_and]

end Relaxation

/-- Layout and emission find the same value for a distance whose coefficients add up to a word, at
every base under which none of its addresses wraps. So its field is written with that value, a chunk
that holds distances only is emitted alike at all such bases, and so is a section of such chunks.
An expression whose positions are in the section and cancel can always be measured, unless its value
is no word. -/
theorem distances_at_every_base {object : Object} {id : Nat} {sect : Section}
    (found : object.sections[id]? = some sect) :
    (∀ (field : Field) (distance : Int64), isWord field.weight = true →
      (sect.relaxed id).distance field = some distance →
      ∀ base, (sect.rebase base).Locates field →
        (object.rebase id base).resolve field = .ok distance.toInt) ∧
    (∀ (site : FieldSite) (distance : Int64), isWord site.counted.weight = true →
      (sect.relaxed id).distance site.counted = some distance →
      ∀ base, (sect.rebase base).Locates site.counted → ∀ output room,
        (object.rebase id base).emitField output site.copy site.offset site.field room =
          .ok (site.written output room distance.toInt)) ∧
    (∀ index, sect.Floats id index → ∀ base another, sect.LocatesAt base id index →
      sect.LocatesAt another id index → ∀ output,
        (object.rebase id base).emitChunk output id index =
          (object.rebase id another).emitChunk output id index) ∧
    ((∀ index < sect.chunks.length, sect.Floats id index) → ∀ base another,
      (∀ index < sect.chunks.length, sect.LocatesAt base id index ∧
        sect.LocatesAt another id index) → ∀ output,
        ((object.rebase id base).emitSection output id).map (fun emitted =>
            (emitted.requests, emitted.program)) =
          ((object.rebase id another).emitSection output id).map fun emitted =>
            (emitted.requests, emitted.program)) ∧
    ∀ (state : Relaxation) (field : Field), state.home = id → field.expr.isDistance id = true →
      field.symbol = none → field.origin = none →
        state.distance field =
          if isWord (field.expr.value state.offsets) then
            some (Int64.ofInt (field.expr.value state.offsets))
          else none := by
  refine ⟨?_, ?_, ?_, ?_, ?_⟩
  · intro field distance word measured base locates
    exact Object.resolve_of_distance (Object.getElem?_rebase found base) word measured locates
  · intro site distance word measured base locates output room
    exact emitField_of_distance found word measured locates output room
  · intro index floats base another locates locatesOther output
    exact floats.emitChunk_eq found locates locatesOther output
  · intro floats base another locates output
    refine Object.emitSection_parallel (Object.getElem?_rebase found base)
      (Object.getElem?_rebase found another) rfl rfl rfl rfl rfl rfl ?_
    intro index inRange
    obtain ⟨here, there⟩ := locates index inRange
    exact (floats index inRange).emitChunk_eq found here there output
  · rintro state field rfl distance absent uncounted
    exact state.distance_of_isDistance distance absent uncounted

/-- Two copies of a jump to the end, the length of the code in two bytes, and the same length in
groups of seven bits. -/
def relativeCode : Object where
  sections :=
    [{ name := ".text"
       chunks :=
        [{ body := .branch (Machine.jmp (.ofLocation ⟨0, 3, 0⟩))
           repeats := some (.ofInt 2) },
          { body := .data
              [.bytes [1],
                .field
                  { expr := { terms := [⟨-1, .place ⟨0, 0, 0⟩⟩, ⟨1, .place ⟨0, 3, 0⟩⟩] }
                    width := 16 }] },
          { body := .leb128
              { number := { terms := [⟨-1, .place ⟨0, 0, 0⟩⟩, ⟨1, .place ⟨0, 3, 0⟩⟩] }
                signed := false } }] }]

/-- The code is emitted, and alike at the bottom of the address space and at its very end. -/
theorem relativeCode_at_every_base :
    ∃ laid layout, ∃ sect : Section,
      relativeCode.layoutSection 0 = .ok (laid, layout) ∧ laid.sections[0]? = some sect ∧
        (∀ index < sect.chunks.length, sect.Floats 0 index) ∧
        (∀ index < sect.chunks.length,
          sect.LocatesAt 0 0 index ∧ sect.LocatesAt 0xfffffffffffffff0 0 index) ∧
        (laid.rebase 0 0).emits (.standard {} false) 0 = true ∧
        ((laid.rebase 0 0).emitSection (.standard {} false) 0).map (fun emitted =>
            (emitted.requests, emitted.program)) =
          ((laid.rebase 0 0xfffffffffffffff0).emitSection (.standard {} false) 0).map fun emitted =>
            (emitted.requests, emitted.program) := by
  obtain ⟨⟨laid, layout⟩, success, sect, found, floats, locates, emits⟩ :=
    exists_ok_of_any (relativeCode.layoutSection 0)
      (p := fun result => ∃ sect : Section, sect ∈ result.1.sections[0]? ∧
        (∀ index < sect.chunks.length, sect.Floats 0 index) ∧
        (∀ index < sect.chunks.length,
          sect.LocatesAt 0 0 index ∧ sect.LocatesAt 0xfffffffffffffff0 0 index) ∧
        (result.1.rebase 0 0).emits (.standard {} false) 0 = true)
      (by decide +kernel)
  obtain ⟨_, _, _, alike, _⟩ := distances_at_every_base found
  exact ⟨laid, layout, sect, success, found, floats, locates, emits,
    alike floats 0 0xfffffffffffffff0 locates (.standard {} false)⟩

end Assembler
