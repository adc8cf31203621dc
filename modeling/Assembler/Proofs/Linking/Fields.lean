import Assembler.Proofs.Emission.Relocation
import Assembler.Proofs.Linking.Layout
import Assembler.Proofs.Reloc.Overlay

/-!
# Emitting fields over imports

A field with an import makes a relocation, and one that is linked is written in place. Filling in
the relocation writes the same bytes (`emitField_links`): the addend carries the way from the
position that the field counts from to the field itself, and the address of the field takes it off
again. `Emission.Links` says the same of whole emissions, and holds of one behind another.
-/

namespace Assembler

variable {value : Int} {field : Field} {emits : Emission → Prop}

/-- The addresses of the imports. -/
def SymbolTable.resolve (table : SymbolTable) (address : String → UInt64) (id : SymbolId) :
    Option UInt64 :=
  if table.imports id then some (table.addressOf address id) else none

/-- A way between positions that is a signed word is the difference of the offsets. -/
theorem toInt_toInt64_sub {stop start : UInt64}
    (word : isWord ((stop.toNat : Int) - start.toNat) = true) :
    (stop - start).toInt64.toInt = stop.toNat - start.toNat := by
  have signed : (stop - start).toInt64.toInt = ((stop - start).toNat : Int).bmod (2 ^ 64) :=
    BitVec.toInt_eq_toNat_bmod _
  have bounds := isWord_iff.mp word
  have stopWord := stop.toNat_lt
  have startWord := start.toNat_lt
  rw [signed, UInt64.toNat_sub, Int.bmod_def]
  split <;> omega

namespace BitField

/-- What is in the signed range is in the unsigned one. -/
theorem fits_unsigned_of_signed {width : Nat}
    (fits : fits value width .signed = true) : BitField.fits value width .unsigned = true := by
  cases width with
  | zero => rfl
  | succ width =>
    have bounds := fits_signed_iff.mp fits
    have wider : (2 : Int) ^ (width + 1) = 2 * 2 ^ width := by ring
    have positive : (0 : Int) < 2 ^ width := Int.pow_pos (by decide)
    simp only [BitField.fits, Nat.one_shiftLeft, Nat.add_sub_cancel, Nat.cast_pow, Nat.cast_ofNat,
      Bool.or_eq_true, Bool.and_eq_true, decide_eq_true_eq]
    omega

end BitField

/-- A value that a relocation accepts does not overflow when it is written in place. -/
theorem Field.fits_check {width : Nat} {pcRelative : Bool}
    (fits : BitField.fits value width (if field.signed || pcRelative then .signed else .unsigned) =
      true) : BitField.fits value width field.check = true := by
  unfold Field.check
  cases field.quiet with
  | true => rfl
  | false =>
    cases signed : field.signed with
    | true => simpa [signed] using fits
    | false =>
      cases pcRelative with
      | true => exact BitField.fits_unsigned_of_signed (by simpa [signed] using fits)
      | false => simpa [signed] using fits

/-- The sections that a field refers to. -/
def Field.sectionIds (field : Field) : List SectionId :=
  (field.expr.places ++ field.origin.toList).map Location.sectionId

/-- The copy of a chunk with its imports linked. -/
def CopySite.link (copy : CopySite) (table : SymbolTable) (address : String → UInt64) : CopySite :=
  { copy with chunk := copy.chunk.link table address }

/-- A field of whole bytes, at least one. -/
structure Field.Whole (field : Field) : Prop where
  bytes : field.width % 8 = 0
  filled : field.width ≠ 0

/-- A whole field has a byte. -/
theorem Field.Whole.size_pos (whole : field.Whole) :
    0 < (field.width / 8).toNat := by
  have remainder : field.width.toNat % 8 = 0 := by simpa using congrArg UInt64.toNat whole.bytes
  have positive : field.width.toNat ≠ 0 := fun zero => whole.filled (UInt64.toNat_inj.mp zero)
  simp only [UInt64.toNat_div]
  simp
  omega

namespace Object

/-- The positions of a section have the same addresses in two objects. -/
def Alike (early late : Object) (id : SectionId) : Prop :=
  ∀ location : Location, location.sectionId = id →
    late.locationAddress location = early.locationAddress location

section

variable {early late : Object} {table : SymbolTable} {address : String → UInt64} {copy : CopySite}
  {field : Field}

/-- The value of an expression depends on the addresses of its positions only. -/
theorem address_congr {expr : Expr}
    (same : ∀ location ∈ expr.places,
      late.locationAddress location = early.locationAddress location) :
    late.address expr = early.address expr := by
  rw [address_eq_foldlM, address_eq_foldlM]
  have each : ∀ term ∈ expr.terms, ∀ location, term.base = .place location →
      late.locationAddress location = early.locationAddress location :=
    fun term member location base => same location (Expr.mem_places.mpr ⟨term, member, base⟩)
  generalize expr.constant = start
  generalize expr.terms = terms at each
  induction terms generalizing start with
  | nil => rfl
  | cons term rest ih =>
    have first : late.addTerm start term = early.addTerm start term := by
      unfold addTerm
      cases base : term.base with
      | symbol id => rfl
      | place location =>
        dsimp only
        rw [each term List.mem_cons_self location base]
    rw [List.foldlM_cons, List.foldlM_cons, first]
    congr 1
    funext sum
    exact ih sum fun other member => each other (List.mem_cons_of_mem _ member)

variable (alike : ∀ id ∈ field.sectionIds, early.Alike late id)
include alike

/-- A field has the same address where its sections are alike. -/
theorem address_alike : late.address field.expr = early.address field.expr := by
  apply address_congr
  intro location member
  exact alike _ (List.mem_map_of_mem (List.mem_append_left _ member)) location rfl

/-- Fields count from the same address. -/
theorem originAddress_alike :
    late.originAddress (copy.link table address) field = early.originAddress copy field := by
  unfold originAddress
  cases origin : field.origin with
  | none => rfl
  | some location =>
    refine alike location.sectionId ?_ _ (CopySite.moveOrigin_sectionId ..)
    exact List.mem_map_of_mem (List.mem_append_right _ (by simp [origin]))

/-- A field without a symbol is written alike where its positions have the same addresses. -/
theorem emitField_alike (absent : field.symbol = none) (tables : SymbolTable × SymbolTable)
    (allowed : Bool × Bool) (offset : UInt64) (room : List UInt8) :
    late.emitField (.standard tables.2 allowed.2) (copy.link table address) offset field room =
      early.emitField (.standard tables.1 allowed.1) copy offset field room := by
  have value := address_alike alike
  have counted := @originAddress_alike early late table address copy field alike
  unfold originAddress at counted
  unfold emitField
  rw [value]
  cases early.address field.expr with
  | error reference => rfl
  | ok sum =>
    cases origin : field.origin with
    | none =>
      simp only [absent, Option.map_none]
      rfl
    | some location =>
      simp only [origin] at counted
      simp only [absent, Option.map_some, counted]
      rfl

end

end Object

/-- A patch over all of some bytes replaces them. -/
theorem paint_cover {start : Nat} {bytes code : List UInt8} (same : bytes.length = code.length) :
    paint [⟨start, bytes⟩] start code = bytes := by
  have spliced := @splice_eq_paint bytes code start 0 (by omega)
  rw [Nat.add_zero] at spliced
  rw [← spliced]
  simp [same]

namespace Emission

/-- The bytes that fill in the relocations of an emission. -/
def patches (emission : Emission) (base : UInt64) (resolve : SymbolId → Option UInt64) :
    List Patch :=
  emission.relocs.map fun reloc => reloc.patch base resolve

/-- An emission at a position of its section, and what is emitted there with the imports linked. The
relocations are in the bytes and lie apart. If all of them can be filled in, what is emitted with
the imports linked is what filling them in gives. -/
structure Links (early : Emission) (base : UInt64) (resolve : SymbolId → Option UInt64)
    (start : Nat) (emits : Emission → Prop) : Prop where
  inside : ∀ patch ∈ early.patches base resolve, start ≤ patch.start ∧
    patch.start < patch.stop ∧ patch.stop ≤ start + early.bytes.length
  apart : (early.patches base resolve).Pairwise Patch.Apart
  linked : (∀ reloc ∈ early.relocs, reloc.Accepted base resolve) →
    ∃ late, emits late ∧ late.Silent ∧ late.relocs = [] ∧
      late.bytes = paint (early.patches base resolve) start early.bytes

namespace Links

variable {base : UInt64} {resolve : SymbolId → Option UInt64} {start : Nat}

/-- An emission without relocations stays as it is. -/
theorem of_same {early : Emission} (none : early.relocs = [])
    (silent : early.Silent) (same : emits early) : early.Links base resolve start emits := by
  have nothing : early.patches base resolve = [] := by
    rw [patches, none, List.map_nil]
  refine ⟨by simp [nothing], by simp [nothing], fun _ => ⟨early, same, silent, none, ?_⟩⟩
  rw [nothing, paint_nil]

/-- An emission that is all one relocation becomes what fills that in. -/
theorem of_reloc {early : Emission} {reloc : Reloc}
    (only : early.relocs = [reloc]) (here : reloc.offset.toNat = start)
    (size : early.bytes.length = reloc.size.toNat) (positive : 0 < reloc.size.toNat)
    (filled : reloc.Accepted base resolve → ∃ late, emits late ∧ late.Silent ∧ late.relocs = [] ∧
      late.bytes = (reloc.patch base resolve).bytes) :
    early.Links base resolve start emits := by
  have one : early.patches base resolve = [reloc.patch base resolve] := by
    rw [patches, only, List.map_singleton]
  have begins : (reloc.patch base resolve).start = start := here
  refine ⟨?_, ?_, ?_⟩
  · intro patch member
    rw [one] at member
    rw [List.mem_singleton.mp member, Reloc.stop_patch, begins, here, size]
    omega
  · rw [one]
    exact List.pairwise_singleton _ _
  · intro accepted
    obtain ⟨late, emitted, silent, none, bytes⟩ :=
      filled (accepted reloc (by rw [only]; exact List.mem_cons_self))
    have long : (reloc.patch base resolve).bytes.length = early.bytes.length := by
      have stop := @Reloc.stop_patch base resolve reloc
      rw [Patch.stop, begins, here] at stop
      omega
    refine ⟨late, emitted, silent, none, ?_⟩
    rw [one, bytes, ← paint_cover long, ← begins]

/-- Emissions link together if each of them does. -/
theorem append {first second : Emission} {emitsFirst emitsSecond : Emission → Prop}
    (linksFirst : first.Links base resolve start emitsFirst)
    (linksSecond : second.Links base resolve (start + first.bytes.length) emitsSecond)
    (together : ∀ one other, emitsFirst one → emitsSecond other → emits (one.append other)) :
    (first.append second).Links base resolve start emits := by
  have patches_append : (first.append second).patches base resolve =
      first.patches base resolve ++ second.patches base resolve := List.map_append
  have length : (first.append second).bytes.length = first.bytes.length + second.bytes.length :=
    List.length_append
  refine ⟨?_, ?_, ?_⟩
  · intro patch member
    rw [patches_append] at member
    rw [length]
    rcases List.mem_append.mp member with inFirst | inSecond
    · have bounds := linksFirst.inside patch inFirst
      omega
    · have bounds := linksSecond.inside patch inSecond
      omega
  · rw [patches_append, List.pairwise_append]
    refine ⟨linksFirst.apart, linksSecond.apart, fun left inFirst right inSecond => .inl ?_⟩
    have before := linksFirst.inside left inFirst
    have behind := linksSecond.inside right inSecond
    omega
  · intro accepted
    obtain ⟨one, emitsOne, silentOne, relocsOne, bytesOne⟩ := linksFirst.linked
      fun reloc member => accepted reloc (List.mem_append_left _ member)
    obtain ⟨other, emitsOther, silentOther, relocsOther, bytesOther⟩ := linksSecond.linked
      fun reloc member => accepted reloc (List.mem_append_right _ member)
    refine ⟨one.append other, together one other emitsOne emitsOther,
      silent_append.mpr ⟨silentOne, silentOther⟩, ?_, ?_⟩
    · simp [Emission.append, relocsOne, relocsOther]
    · have painted := @paint_append (first.patches base resolve) (second.patches base resolve) start
        first.bytes second.bytes (fun patch member => (linksFirst.inside patch member).2.2)
        (fun patch member => (linksSecond.inside patch member).1)
      rw [patches_append]
      exact (congrArg₂ (· ++ ·) bytesOne bytesOther).trans painted.symm

/-- What is emitted may be said in another way. It has as many bytes either way. -/
theorem mono {early : Emission} {others : Emission → Prop}
    (links : early.Links base resolve start emits)
    (weaker : ∀ late, late.bytes.length = early.bytes.length → emits late → others late) :
    early.Links base resolve start others := by
  refine ⟨links.inside, links.apart, fun accepted => ?_⟩
  obtain ⟨late, emitted, silent, relocs, bytes⟩ := links.linked accepted
  exact ⟨late, weaker late (by rw [bytes, length_paint]) emitted, silent, relocs, bytes⟩

end Links

end Emission

/-- Neither the address that a field counts from wraps, nor the way from there to the field. -/
def Section.Unwrapped (sect : Section) (site : FieldSite) : Prop :=
  ∀ origin ∈ site.field.origin,
    sect.base.toNat + (sect.offsetOf (site.copy.moveOrigin origin)).toNat < 2 ^ 64 ∧
    isWord ((sect.siteOffset site).toNat -
      (sect.offsetOf (site.copy.moveOrigin origin)).toNat) = true
deriving Decidable

/-- A field of a section that can be linked late: its positions have the same addresses before and
after linking, and if it has a symbol, its relocation can say what the field says. -/
structure FieldSite.Linkable (site : FieldSite) (early late : Object) (sect : Section)
    (table : SymbolTable) : Prop where
  alike : ∀ id ∈ site.field.sectionIds, early.Alike late id
  counted : site.field.symbol.any table.imports = true → site.field.ipRelative = true →
    site.field.origin.isSome = true
  fits : site.field.symbol.isSome = true → early.fitsAddend site = true
  unwrapped : site.field.symbol.isSome = true → sect.Unwrapped site

namespace Object

variable {early late : Object} {table : SymbolTable} {address : String → UInt64}
  {site : FieldSite} {sect : Section}

/-- What a relocation writes: the value of the field's positions and the symbol's address, less the
address that the field counts from. -/
theorem exists_value (found : early.sections[site.copy.sectionId]? = some sect)
    (home : ∀ origin ∈ site.field.origin, origin.sectionId = site.copy.sectionId)
    (counts : site.field.ipRelative = true → site.field.origin.isSome = true)
    (unwrapped : sect.Unwrapped site)
    (bounded : sect.base.toNat + (sect.siteOffset site).toNat < 2 ^ 64) {addend : Int}
    (added : early.addend site = .ok addend) :
    ∃ sum counted, early.address site.field.expr = .ok sum ∧
      early.originAddress site.copy site.field = .ok counted ∧
      addend - (if site.field.ipRelative || site.field.origin.isSome then
        (sect.base + sect.siteOffset site).toNat else 0 : Nat) = sum - counted.toNat := by
  unfold Object.addend at added
  obtain ⟨sum, value, added⟩ := exists_of_bind_ok added
  unfold originAddress
  cases origin : site.field.origin with
  | none =>
    rw [origin] at added counts
    cases added
    have absolute : site.field.ipRelative = false := by simpa using counts
    exact ⟨_, 0, value, rfl, by simp [absolute]⟩
  | some location =>
    have inside : (site.copy.moveOrigin location).sectionId = site.copy.sectionId := by
      rw [CopySite.moveOrigin_sectionId]
      exact home location origin
    obtain ⟨reach, way⟩ := unwrapped location origin
    simp only [origin, locationOffset, inside, getSection_natCast, found, FieldSite.place, bind,
      Except.bind, pure, Except.pure, Except.ok.injEq] at added
    refine ⟨sum, _, value, locationAddress_of_section found inside, ?_⟩
    have delta := toInt_toInt64_sub way
    unfold Section.siteOffset FieldSite.place at delta
    rw [← added, delta, Option.isSome_some, Bool.or_true, if_pos rfl, UInt64.toNat_add,
      UInt64.toNat_add, Nat.mod_eq_of_lt bounded, Nat.mod_eq_of_lt reach]
    unfold Section.siteOffset FieldSite.place
    omega

/-- A field with its import linked is written in place. -/
theorem exists_emitField_link (lateSymbols : SymbolTable) (allowed : Bool) {copy : CopySite}
    {symbol : SymbolId} {sum : Int} {counted : UInt64}
    (alike : ∀ id ∈ field.sectionIds, early.Alike late id) (whole : field.Whole)
    (known : field.symbol = some symbol) (imported : table.imports symbol = true)
    (summed : early.address field.expr = .ok sum)
    (start : early.originAddress copy field = .ok counted)
    (total : value = (table.addressOf address symbol).toNat + (sum - counted.toNat))
    (fits : BitField.fits value field.width.toNat field.check = true) (offset : UInt64) :
    ∃ linked, late.emitField (.standard lateSymbols allowed) (copy.link table address) offset
        (field.link table address) (List.replicate (field.width / 8).toNat 0) = .ok linked ∧
      linked.Silent ∧ linked.relocs = [] ∧
      linked.bytes = BitField.setBits (List.replicate (field.width / 8).toNat 0)
        (value % 2 ^ field.width.toNat).toNat := by
  have absent : (field.link table address).symbol = none := by
    simp [Field.link, known, imported, Option.filter]
  have linkedSum : late.address (field.link table address).expr =
      .ok (sum + (table.addressOf address symbol).toNat) := by
    rw [Field.link, address_addInt, address_alike alike, summed, known]
    simp [SymbolTable.shift, imported, Except.map]
  have origin : late.originAddress (copy.link table address) (field.link table address) =
      .ok counted := (originAddress_alike alike).trans start
  obtain ⟨linked, emitted, bytes, diagnostics⟩ := emitField_written lateSymbols allowed absent
    linkedSum origin offset (List.replicate (field.width / 8).toNat 0)
  have written : BitField.write (List.replicate (field.width / 8).toNat 0)
      (sum + (table.addressOf address symbol).toNat - counted.toNat)
        (field.link table address).width 0 (field.link table address).check =
      (BitField.setBits (List.replicate (field.width / 8).toNat 0)
        (value % 2 ^ field.width.toNat).toNat, none) := by
    have same : sum + (table.addressOf address symbol).toNat - counted.toNat = value := by omega
    rw [same]
    refine (BitField.write_whole whole.bytes value field.check).trans ?_
    rw [if_pos fits]
  rw [written] at bytes diagnostics
  refine ⟨linked, emitted, ?_, emitField_relocs_of_none emitted absent, bytes⟩
  intro diagnostic member
  rw [diagnostics] at member
  cases member

/-- The relocation that a field makes if its addend is a word. -/
theorem exists_reloc_of_emitField {symbols : SymbolTable} {room : List UInt8} {emission : Emission}
    {symbol : SymbolId} (found : early.sections[site.copy.sectionId]? = some sect)
    (emitted : early.emitField (.standard symbols true) site.copy site.offset site.field room =
      .ok emission) (silent : emission.Silent) (known : site.field.symbol = some symbol)
    (fits : early.fitsAddend site = true) :
    ∃ addend, early.addend site = .ok addend ∧ isWord addend = true ∧
      emission.relocs = [⟨sect.siteOffset site, symbol, Int64.ofInt addend, site.field.width,
        site.field.ipRelative || site.field.origin.isSome, site.field.signed⟩] := by
  obtain ⟨_, relocs, _, ⟨addend, added⟩, _⟩ := emitField_symbol emitted silent known
  have placed : early.locationOffset site.place = .ok (sect.siteOffset site) := by
    simp only [locationOffset, FieldSite.place, getSection_natCast, found]
    rfl
  rw [fitsAddend_eq added] at fits
  rw [reloc?_eq known placed added, if_pos fits, Option.toList_some] at relocs
  exact ⟨addend, added, fits, relocs⟩

/-- Filling in the relocation of a field writes what the field writes with its import linked. -/
theorem emitField_links (address : String → UInt64) (lateSymbols : SymbolTable) (allowed : Bool)
    {symbols : SymbolTable} {emission : Emission}
    (found : early.sections[site.copy.sectionId]? = some sect)
    (emitted : early.emitField (.standard symbols true) site.copy site.offset site.field
      (List.replicate (site.field.width / 8).toNat 0) = .ok emission) (silent : emission.Silent)
    (whole : site.field.Whole) (linkable : site.Linkable early late sect table)
    (bounded : sect.base.toNat + (sect.siteOffset site).toNat < 2 ^ 64) :
    emission.Links sect.base (table.resolve address) (sect.siteOffset site).toNat fun linked =>
      late.emitField (.standard lateSymbols allowed) (site.copy.link table address) site.offset
        (site.field.link table address) (List.replicate (site.field.width / 8).toNat 0) =
          .ok linked := by
  cases known : site.field.symbol with
  | none =>
    apply Emission.Links.of_same (emitField_relocs_of_none emitted known) silent
    rw [Field.link_of_local (by simp [known]), ← emitted]
    exact emitField_alike linkable.alike known (symbols, lateSymbols) (true, allowed) _ _
  | some symbol =>
    have isSome : site.field.symbol.isSome = true := by rw [known, Option.isSome_some]
    obtain ⟨bytes, _, _, _, _, home⟩ := emitField_symbol emitted silent known
    obtain ⟨addend, added, fits, relocs⟩ :=
      exists_reloc_of_emitField found emitted silent known (linkable.fits isSome)
    have needed := BitField.bytesNeeded_whole whole.bytes
    rw [BitField.bytesNeeded, UInt64.add_zero] at needed
    refine Emission.Links.of_reloc relocs rfl ?_ ?_ ?_
    · rw [bytes, List.length_replicate, Reloc.size, needed]
    · rw [Reloc.size, needed]
      exact whole.size_pos
    rintro ⟨target, resolved, inRange⟩
    obtain ⟨imported, rfl⟩ : table.imports symbol = true ∧
        table.addressOf address symbol = target := by
      simpa [SymbolTable.resolve, Option.ite_none_right_eq_some] using resolved
    have isImport : site.field.symbol.any table.imports = true := by
      rw [known, Option.any_some, imported]
    obtain ⟨sum, counted, summed, counts, total⟩ := exists_value found home
      (linkable.counted isImport) (linkable.unwrapped isSome) bounded added
    obtain ⟨linked, links, quiet, none, written⟩ := exists_emitField_link lateSymbols allowed
      linkable.alike whole known imported summed counts
      (by rw [← total, Reloc.value, isWord_iff_toInt_ofInt.mp fits]; exact Int.add_sub_assoc ..)
      (Field.fits_check inRange) site.offset
    refine ⟨linked, links, quiet, none, ?_⟩
    rw [written, Reloc.patch, resolved, Option.getD_some, Reloc.size, needed,
      BitField.write_whole whole.bytes]

end Object

end Assembler
