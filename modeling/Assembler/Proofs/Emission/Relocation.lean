import Assembler.Proofs.Emission.Agreement
import Assembler.Proofs.Emission.Parallel
import Assembler.Proofs.Reloc.Order

/-!
# No relocation but a wide one is lost

A program has relocations for fields of its section only, at most one at each offset, with the
symbol and the width of the field. A field with a symbol is left without one exactly if its addend
is no signed word, which is a mere warning, and no earlier emission recorded one
(`relocations_kept_iff`). The displacement of a branch is never left so. `wideAddend_lost` is a
program that leaves a field zero.
-/

namespace Assembler

/-- The offset of a field in its section. -/
def Section.siteOffset (sect : Section) (site : FieldSite) : UInt64 := sect.offsetOf site.place

/-- The fields of a section that have a symbol. -/
def Section.symbolSites (sect : Section) (id : Nat) : List FieldSite :=
  (sect.sites id).filter fun site => site.field.symbol.isSome

/-- A relocation stands for a field: it is at its offset, and has its symbol and width. -/
structure Section.StandsFor (sect : Section) (site : FieldSite) (reloc : Reloc) : Prop where
  offset : reloc.offset = sect.siteOffset site
  symbol : site.field.symbol = some reloc.symbol
  width : reloc.width = site.field.width

/-- Relocations of a section: in the order of their offsets, at most one at each, and every one for
a field. -/
structure Section.Records (sect : Section) (id : Nat) (relocs : List Reloc) : Prop where
  ordered : Reloc.Ordered relocs
  fields : ∀ reloc ∈ relocs, ∃ site ∈ sect.symbolSites id, sect.StandsFor site reloc

section

variable {object : Object} {sect : Section} {id : Nat}

/-- The relocation that a field asks for stands for it. -/
theorem Object.reloc?_standsFor (found : object.sections[id]? = some sect) {site : FieldSite}
    (member : site ∈ sect.sites id) {reloc : Reloc} (made : object.reloc? site = some reloc) :
    sect.StandsFor site reloc := by
  have placed : object.locationOffset site.place = .ok (sect.siteOffset site) := by
    have home : site.place.sectionId = id := by
      rw [← Section.sectionId_of_mem_sites member]
      rfl
    simp only [Object.locationOffset, home, Object.getSection_natCast, found]
    rfl
  unfold Object.reloc? at made
  obtain ⟨symbol, known, made⟩ := Option.bind_eq_some_iff.mp made
  obtain ⟨offset, located, made⟩ := Option.bind_eq_some_iff.mp made
  obtain ⟨addend, _, made⟩ := Option.bind_eq_some_iff.mp made
  rw [placed] at located
  cases located
  split at made
  · cases made
    exact ⟨rfl, known, rfl⟩
  · cases made

/-- The sites with symbols are those whose field has one. -/
theorem Section.mem_symbolSites {site : FieldSite} :
    site ∈ sect.symbolSites id ↔ site ∈ sect.sites id ∧ site.field.symbol.isSome = true :=
  List.mem_filter

/-- The relocations that fields make are at distinct offsets if the fields are. -/
theorem Object.nodup_reloc?_offsets (found : object.sections[id]? = some sect)
    (distinct : ((sect.symbolSites id).map sect.siteOffset).Nodup) :
    (((sect.sites id).filterMap object.reloc?).map Reloc.offset).Nodup := by
  have within : ∀ sites : List FieldSite, (∀ site ∈ sites, site ∈ sect.sites id) →
      ((sites.filterMap object.reloc?).map Reloc.offset).Sublist
        ((sites.filter fun site => site.field.symbol.isSome).map sect.siteOffset) := by
    intro sites members
    induction sites with
    | nil => exact List.nil_sublist _
    | cons site rest ih =>
      have later := ih fun other member => members other (List.mem_cons_of_mem _ member)
      cases made : object.reloc? site with
      | none =>
        rw [List.filterMap_cons_none made]
        exact later.trans ((List.Sublist.filter _ (List.sublist_cons_self site rest)).map _)
      | some reloc =>
        have stands := Object.reloc?_standsFor found (members site List.mem_cons_self) made
        rw [List.filterMap_cons_some made, List.filter_cons_of_pos (by simp [stands.symbol]),
          List.map_cons, List.map_cons, stands.offset]
        exact later.cons_cons _
  exact distinct.sublist (within _ fun _ member => member)

/-- Of fields at distinct offsets, a recorded relocation stands for the one at its offset, and is
the only one there. -/
theorem Section.Records.unique {relocs : List Reloc} (records : sect.Records id relocs)
    (distinct : ((sect.symbolSites id).map sect.siteOffset).Nodup) {site : FieldSite}
    (inSites : site ∈ sect.symbolSites id) {reloc : Reloc} (member : reloc ∈ relocs)
    (same : reloc.offset = sect.siteOffset site) :
    relocs.filter (fun other => other.offset = sect.siteOffset site) = [reloc] ∧
      sect.StandsFor site reloc := by
  obtain ⟨owner, isSite, stands⟩ := records.fields reloc member
  have one : owner = site :=
    List.inj_on_of_nodup_map distinct isSite inSites (stands.offset.symm.trans same)
  refine ⟨?_, one ▸ stands⟩
  rw [← same]
  exact records.ordered.filter_offset member

/-- An emission beside itself that makes the relocations of its fields, unless it is stopped. -/
def Object.Relocating (object : Object) (sites : List FieldSite) (left right : Emission) : Prop :=
  left = right ∧ (left.Silent → object.Relocates sites left)

/-- To make the relocations of fields is a congruence. -/
theorem Emission.Congruence.relocating (object : Object) :
    Emission.Congruence object.Relocating where
  bytes related := by rw [related.1]
  plain _ _ := ⟨rfl, fun _ => .of_empty rfl⟩
  append := by
    rintro _ _ left _ first _ ⟨rfl, here⟩ ⟨rfl, later⟩
    refine ⟨rfl, fun silent => ?_⟩
    obtain ⟨silentHere, silentLater⟩ := Emission.silent_append.mp silent
    exact (here silentHere).append (later silentLater)
  emptied := by
    rintro _ left _ ⟨rfl, here⟩
    exact ⟨rfl, fun silent => (here silent).congr rfl⟩
  report := by
    rintro _ left _ ⟨rfl, here⟩ more
    refine ⟨rfl, fun silent => (here fun diagnostic member => ?_).congr rfl⟩
    exact silent diagnostic (List.mem_append_left _ member)
  stop := by
    rintro _ left _ ⟨rfl, _⟩ _ diagnostic stops
    refine ⟨rfl, fun silent => ?_⟩
    rw [silent diagnostic (List.mem_append_right _ (List.mem_singleton.mpr rfl))] at stops
    cases stops

/-- Chunks that were laid out without an error make the relocations of their fields. -/
theorem Object.emitChunks_relocates {table : SymbolTable} (found : object.sections[id]? = some sect)
    (laidOut : sect.laidOut = true) (sound : ∀ chunk ∈ sect.chunks, chunk.slot.error = none)
    (integers : ∀ chunk ∈ sect.chunks, ∀ integer ∈ chunk.body.integer?,
      integer.value.symbol = none) {indices : List Nat} {emission : Emission}
    (emitted : object.emitChunks (.standard table true) sect id indices = .ok emission)
    (silent : emission.Silent) :
    object.Relocates (indices.flatMap (sect.chunkSites id)) emission := by
  have parallel : Parallel (object.Relocating (indices.flatMap (sect.chunkSites id)))
      (object.emitChunks (.standard table true) sect id indices)
      (object.emitChunks (.standard table true) sect id indices) := by
    refine emitChunks_parallel (.relocating object) rfl rfl rfl (fun index _ => ?_)
      fun index _ reason refused => absurd refused (emitChunk_ne_error found laidOut sound reason)
    refine emitChunk_parallel (.relocating object) found found rfl rfl rfl
      fun chunk chunkAt number _ => emitCopy_parallel (.relocating object) ?_ ?_
    · exact fun entry _ room => .of_eq rfl fun emission written =>
        ⟨rfl, emitField_relocates written⟩
    · exact fun integer isSome => ⟨rfl, fun _ _ => ⟨rfl, fun _ =>
        .of_absent rfl (integers chunk (List.mem_of_getElem? chunkAt) integer isSome)⟩⟩
  rw [emitted] at parallel
  cases parallel with
  | ok related => exact related.2 silent

/-- The relocations of a program are those of its fields, recorded over earlier ones. -/
theorem relocs_of_emitSection {symbols table : SymbolTable} {emitted : Object.Emitted}
    {program : Program} (clean : sect.Clean symbols id)
    (found : object.sections[id]? = some sect)
    (success : object.emitSection (.standard table true) id = .ok emitted)
    (accepted : emitted.program = .ok program) :
    ∃ emission, object.Relocates (sect.sites id) emission ∧
      program.relocs = Reloc.insertAll emission.relocs sect.relocs := by
  obtain ⟨laidOut, _, emission, emits, silent, relocs, _⟩ :=
    Object.emitSection_ok found success accepted
  have integers : ∀ chunk ∈ sect.chunks, ∀ integer ∈ chunk.body.integer?,
      integer.value.symbol = none := by
    intro chunk member integer isSome
    obtain ⟨index, chunkAt⟩ := List.mem_iff_getElem?.mp member
    obtain ⟨origin⟩ := clean.origin chunkAt
    exact (origin.integer_value (Body.integer?_eq_some.mp isSome)).1
  exact ⟨emission,
    Object.emitChunks_relocates found laidOut clean.error_none integers emits silent, relocs⟩

/-- A program has relocations for fields only. Each field with a symbol has exactly one, with its
symbol and its width, if and only if each has an addend that is a word or was given a relocation
earlier; and the addend of a displacement always is a word. -/
theorem relocations_kept_iff {source laid : Object} {layout : Layout} (table : SymbolTable)
    (success : source.layoutSection id = .ok (laid, layout)) (silent : layout.error = none)
    (carries : object.Carries id layout.sect sect)
    (distinct : ((sect.symbolSites id).map sect.siteOffset).Nodup)
    (earlier : sect.Records id sect.relocs) {emitted : Object.Emitted} {program : Program}
    (emits : object.emitSection (.standard table true) id = .ok emitted)
    (accepted : emitted.program = .ok program) :
    sect.Records id program.relocs ∧
      ((∀ site ∈ sect.symbolSites id, ∃ reloc,
          program.relocs.filter (fun other => other.offset = sect.siteOffset site) = [reloc] ∧
            sect.StandsFor site reloc) ↔
        ∀ site ∈ sect.symbolSites id, object.fitsAddend site = true ∨
          ∃ reloc ∈ sect.relocs, reloc.offset = sect.siteOffset site) ∧
      ∀ site ∈ sect.symbolSites id, site.field.jump = true → object.fitsAddend site = true := by
  obtain ⟨clean, _⟩ := carries.clean success silent
  obtain ⟨emission, relocates, recorded⟩ :=
    relocs_of_emitSection clean carries.found emits accepted
  have apart : (emission.relocs.map Reloc.offset).Nodup := by
    rw [relocates.relocs]
    exact Object.nodup_reloc?_offsets carries.found distinct
  have member : ∀ reloc, reloc ∈ program.relocs ↔ reloc ∈ emission.relocs ∨
      (reloc ∈ sect.relocs ∧ ∀ other ∈ emission.relocs, reloc.offset ≠ other.offset) := by
    intro reloc
    rw [recorded]
    exact Reloc.mem_insertAll earlier.ordered apart
  have made : ∀ reloc ∈ emission.relocs, ∃ site ∈ sect.symbolSites id,
      sect.StandsFor site reloc ∧ object.fitsAddend site = true := by
    intro reloc found
    rw [relocates.relocs] at found
    obtain ⟨site, inSites, makes⟩ := List.mem_filterMap.mp found
    have stands := Object.reloc?_standsFor carries.found inSites makes
    have isSome : site.field.symbol.isSome = true := by
      rw [stands.symbol, Option.isSome_some]
    refine ⟨site, Section.mem_symbolSites.mpr ⟨inSites, isSome⟩, stands, ?_⟩
    rw [← relocates.isSome_reloc? inSites isSome, makes, Option.isSome_some]
  have records : sect.Records id program.relocs := by
    constructor
    · rw [recorded]
      exact Reloc.ordered_insertAll _ earlier.ordered
    · intro reloc found
      rcases (member reloc).mp found with new | ⟨old, _⟩
      · obtain ⟨site, inSites, stands, _⟩ := made reloc new
        exact ⟨site, inSites, stands⟩
      · exact earlier.fields reloc old
  refine ⟨records, ⟨?_, ?_⟩, ?_⟩
  · intro kept site inSites
    obtain ⟨reloc, only, stands⟩ := kept site inSites
    have found : reloc ∈ program.relocs :=
      List.mem_of_mem_filter (only ▸ List.mem_singleton_self reloc)
    rcases (member reloc).mp found with new | ⟨old, _⟩
    · obtain ⟨owner, isSite, owned, fits⟩ := made reloc new
      have one : owner = site :=
        List.inj_on_of_nodup_map distinct isSite inSites (owned.offset.symm.trans stands.offset)
      exact .inl (one ▸ fits)
    · exact .inr ⟨reloc, old, stands.offset⟩
  · intro fitting site inSites
    obtain ⟨inAll, isSome⟩ := Section.mem_symbolSites.mp inSites
    have recordedAt : ∃ reloc ∈ program.relocs, reloc.offset = sect.siteOffset site := by
      rcases fitting site inSites with fits | ⟨old, inOld, same⟩
      · rw [← relocates.isSome_reloc? inAll isSome] at fits
        obtain ⟨reloc, makes⟩ := Option.isSome_iff_exists.mp fits
        have new : reloc ∈ emission.relocs := by
          rw [relocates.relocs]
          exact List.mem_filterMap.mpr ⟨site, inAll, makes⟩
        exact ⟨reloc, (member reloc).mpr (.inl new),
          (Object.reloc?_standsFor carries.found inAll makes).offset⟩
      · -- An earlier relocation stays unless a new one takes its place.
        by_cases replaced : ∃ new ∈ emission.relocs, old.offset = new.offset
        · obtain ⟨new, inNew, here⟩ := replaced
          exact ⟨new, (member new).mpr (.inl inNew), here.symm.trans same⟩
        · refine ⟨old, (member old).mpr (.inr ⟨inOld, fun new inNew here => ?_⟩), same⟩
          exact replaced ⟨new, inNew, here⟩
    obtain ⟨reloc, inRelocs, same⟩ := recordedAt
    exact ⟨reloc, records.unique distinct inSites inRelocs same⟩
  · intro site inSites
    obtain ⟨inAll, isSome⟩ := Section.mem_symbolSites.mp inSites
    exact relocates.jumps site inAll isSome

end

/-- A section without relocations records none. -/
theorem Section.records_nil (sect : Section) (id : Nat) : sect.Records id [] where
  ordered := List.Pairwise.nil
  fields := by simp

/-- Two copies of a field that holds a symbol of another object and an addend. -/
def importedField (addend : Int) : Object where
  sections :=
    [{ name := ".data"
       chunks :=
        [{ body := .data
            [.field { expr := { constant := addend, terms := [⟨1, .symbol 1⟩] }, width := 64 }]
           repeats := some (.ofInt 2) }] }]
  table := { symbols := [{ name := "x", meaning := .imported }] }

/-- The relocations of both copies are kept as long as the addend is a word. Beyond that the program
is accepted without them. -/
theorem wideAddend_lost :
    (∃ laid layout emitted program,
      (importedField (2 ^ 63 - 1)).layoutSection 0 = .ok (laid, layout) ∧ layout.error = none ∧
        laid.emitSection (.standard laid.table true) 0 = .ok emitted ∧
        emitted.program = .ok program ∧ (layout.sect.symbolSites 0).length = 2 ∧
        ∀ site ∈ layout.sect.symbolSites 0, ∃ reloc,
          program.relocs.filter (fun other => other.offset = layout.sect.siteOffset site) =
            [reloc] ∧ layout.sect.StandsFor site reloc) ∧
    ∃ laid layout emitted program,
      (importedField (2 ^ 63)).layoutSection 0 = .ok (laid, layout) ∧ layout.error = none ∧
        laid.emitSection (.standard laid.table true) 0 = .ok emitted ∧
        emitted.program = .ok program ∧ (layout.sect.symbolSites 0).length = 2 ∧
        ¬ ∀ site ∈ layout.sect.symbolSites 0, ∃ reloc,
          program.relocs.filter (fun other => other.offset = layout.sect.siteOffset site) =
            [reloc] ∧ layout.sect.StandsFor site reloc := by
  have kept : ∀ {addend : Int} {laid : Object} {layout : Layout},
      (importedField addend).layoutSection 0 = .ok (laid, layout) → layout.error = none →
      ((layout.sect.symbolSites 0).map layout.sect.siteOffset).Nodup → layout.sect.relocs = [] →
      laid.emits (.standard laid.table true) 0 = true →
      ∃ emitted program, laid.emitSection (.standard laid.table true) 0 = .ok emitted ∧
        emitted.program = .ok program ∧
        ((∀ site ∈ layout.sect.symbolSites 0, ∃ reloc,
          program.relocs.filter (fun other => other.offset = layout.sect.siteOffset site) =
            [reloc] ∧ layout.sect.StandsFor site reloc) ↔
          ∀ site ∈ layout.sect.symbolSites 0, laid.fitsAddend site = true) := by
    intro addend laid layout success silent distinct fresh emits
    obtain ⟨_, _, _, found, _⟩ := layoutSection_ok success
    obtain ⟨emitted, program, emission, accepted⟩ := Object.exists_program emits
    have earlier := layout.sect.records_nil 0
    rw [← fresh] at earlier
    obtain ⟨_, iff, _⟩ := relocations_kept_iff laid.table success silent
      ⟨found, rfl, rfl, rfl, rfl⟩ distinct earlier emission accepted
    refine ⟨emitted, program, emission, accepted, iff.trans ?_⟩
    simp [fresh]
  constructor
  · obtain ⟨⟨laid, layout⟩, success, silent, count, distinct, fresh, emits, fits⟩ :=
      exists_ok_of_any ((importedField (2 ^ 63 - 1)).layoutSection 0)
        (p := fun result => result.2.error = none ∧ (result.2.sect.symbolSites 0).length = 2 ∧
          ((result.2.sect.symbolSites 0).map result.2.sect.siteOffset).Nodup ∧
          result.2.sect.relocs = [] ∧ result.1.emits (.standard result.1.table true) 0 = true ∧
          ∀ site ∈ result.2.sect.symbolSites 0, result.1.fitsAddend site = true)
        (by decide +kernel)
    obtain ⟨emitted, program, emission, accepted, iff⟩ := kept success silent distinct fresh emits
    exact ⟨laid, layout, emitted, program, success, silent, emission, accepted, count, iff.mpr fits⟩
  · obtain ⟨⟨laid, layout⟩, success, silent, count, distinct, fresh, emits, wide⟩ :=
      exists_ok_of_any ((importedField (2 ^ 63)).layoutSection 0)
        (p := fun result => result.2.error = none ∧ (result.2.sect.symbolSites 0).length = 2 ∧
          ((result.2.sect.symbolSites 0).map result.2.sect.siteOffset).Nodup ∧
          result.2.sect.relocs = [] ∧ result.1.emits (.standard result.1.table true) 0 = true ∧
          ¬ ∀ site ∈ result.2.sect.symbolSites 0, result.1.fitsAddend site = true)
        (by decide +kernel)
    obtain ⟨emitted, program, emission, accepted, iff⟩ := kept success silent distinct fresh emits
    exact ⟨laid, layout, emitted, program, success, silent, emission, accepted, count,
      fun all => wide (iff.mp all)⟩

end Assembler
