import Assembler.Proofs.Description.Contents
import Assembler.Proofs.Object.Labels

/-!
# Where items go

An object that is built from a description has a section for each name, and the items of all
described sections of that name are in it one after the other (`Section.Holds`): labels between
chunks, and every other item as a chunk of its own, in whose formulas the current position is that
of the chunk itself. Every item that is added keeps this (`Object.Follows`), so it holds of the
whole (`Description.build_places_items`).
-/

namespace Assembler

/-- The elements of a list with one more behind it. -/
theorem getElem?_concat_eq_some {α : Type} {list : List α} {last value : α} {index : Nat} :
    (list ++ [last])[index]? = some value ↔
      list[index]? = some value ∨ index = list.length ∧ last = value := by
  rcases Nat.lt_or_ge index list.length with before | behind
  · rw [List.getElem?_append_left before]
    exact ⟨.inl, fun either => either.resolve_right fun last => by omega⟩
  · rw [List.getElem?_append_right behind, List.getElem?_eq_none behind, List.getElem?_singleton]
    simp [show index - list.length = 0 ↔ index = list.length by omega]

namespace Item

/-- Whether an item is a label. -/
def isLabel (item : Item) : Bool := item.kinds = [.label]

/-- The items that describe chunks. -/
def contents (items : List Item) : List Item := items.filter fun item => !item.isLabel

/-- One more item is one more chunk, unless it is a label. -/
theorem contents_concat (items : List Item) (item : Item) :
    contents (items ++ [item]) = contents items ++ if item.isLabel then [] else [item] := by
  rw [contents, List.filter_append]
  cases isLabel : item.isLabel <;> simp [contents, isLabel]

/-- A chunk is what an item describes: it has the item's line, its body and repeat count are built
from the item, and their expressions are what the item's formulas stand for at a place. -/
structure Describes (read : FileReader) (directory : String) (table : SymbolTable)
    (place : Location) (item : Item) (chunk : Chunk) : Prop where
  line : chunk.line = item.line
  built : ∃ kind, item.kinds = [kind] ∧ (∃ before after,
      Building.chunk read directory item (some place) kind before =
        (.ok (chunk.body, chunk.repeats), after)) ∧
    List.Forall₂ (table.Reads (some place)) (item.formulas kind) chunk.body.expressions
  times : List.Forall₂ (table.Reads (some place)) (present item.times) chunk.repeats.toList

end Item

/-- A section holds the chunks of items in order, and the labels among the items are right before
the chunk of the next item that is none. -/
structure Section.Holds (read : FileReader) (directory : String) (table : SymbolTable) (id : Nat)
    (items : List Item) (sect : Section) : Prop where
  length : sect.chunks.length = (Item.contents items).length
  described : ∀ (index : Nat) item chunk, (Item.contents items)[index]? = some item →
    sect.chunks[index]? = some chunk → item.Describes read directory table ⟨id, index, 0⟩ chunk
  labelled : ∀ (position : Nat) item, items[position]? = some item → item.isLabel = true →
    ∃ label, table.find? item.label = some label ∧ table.get? label = some
      { name := item.label
        meaning := .label ⟨id, (Item.contents (items.take position)).length, 0⟩
        line := item.line }

section

variable {read : FileReader} {directory : String} {table after : SymbolTable} {id : Nat}
  {items : List Item} {item : Item} {sect : Section}

/-- Further symbols do not change what an item describes. -/
theorem Item.Describes.mono {place : Location} {chunk : Chunk} (lasts : table.Lasts after)
    (describes : item.Describes read directory table place chunk) :
    item.Describes read directory after place chunk where
  line := describes.line
  built := by
    obtain ⟨kind, one, built, stand⟩ := describes.built
    exact ⟨kind, one, built, stand.imp fun _ _ => .mono lasts⟩
  times := describes.times.imp fun _ _ => .mono lasts

namespace Section.Holds

/-- Further symbols do not change what a section holds. -/
theorem mono (lasts : table.Lasts after) (holds : sect.Holds read directory table id items) :
    sect.Holds read directory after id items where
  length := holds.length
  described index item chunk isItem isChunk :=
    (holds.described index item chunk isItem isChunk).mono lasts
  labelled position item isItem isLabel := by
    obtain ⟨label, found, known⟩ := holds.labelled position item isItem isLabel
    exact ⟨label, lasts.find? found, lasts.meaning known (by simp)⟩

theorem empty (name : String) : Section.Holds read directory table id [] { name } where
  length := rfl
  described index item chunk isItem := by simp [Item.contents] at isItem
  labelled position item isItem := by simp at isItem

variable (holds : sect.Holds read directory table id items)
include holds

/-- The labels among the items are where they were when another item follows them. -/
theorem labelled_concat
    (last : item.isLabel = true → ∃ label, table.find? item.label = some label ∧
      table.get? label = some { name := item.label, meaning := .label (sect.here id),
                                line := item.line }) :
    ∀ (position : Nat) other, (items ++ [item])[position]? = some other → other.isLabel = true →
      ∃ label, table.find? other.label = some label ∧ table.get? label = some
        { name := other.label
          meaning := .label ⟨id, (Item.contents ((items ++ [item]).take position)).length, 0⟩
          line := other.line } := by
  intro position other isItem isLabel
  rcases getElem?_concat_eq_some.mp isItem with before | ⟨rfl, rfl⟩
  · obtain ⟨inside, _⟩ := List.getElem?_eq_some_iff.mp before
    rw [List.take_append_of_le_length (Nat.le_of_lt inside)]
    exact holds.labelled position other before isLabel
  · rw [List.take_left, ← holds.length]
    exact last isLabel

/-- A chunk that is described comes behind the others. -/
theorem append (content : item.isLabel = false) {body : Body} {repeats : Option Expr}
    (describes : item.Describes read directory table (sect.here id)
      { body, line := item.line, repeats, labels := sect.pending }) :
    (sect.append body item.line repeats).Holds read directory table id (items ++ [item]) where
  length := by simp [Section.append, Item.contents_concat, content, holds.length]
  described := by
    intro index other chunk isItem isChunk
    rw [Item.contents_concat, content, if_neg Bool.false_ne_true, getElem?_concat_eq_some,
      ← holds.length] at isItem
    rw [Section.append, getElem?_concat_eq_some] at isChunk
    rcases isItem with isItem | ⟨rfl, rfl⟩ <;> rcases isChunk with isChunk | ⟨same, rfl⟩
    · exact holds.described index other chunk isItem isChunk
    · obtain ⟨inside, _⟩ := List.getElem?_eq_some_iff.mp isItem
      rw [← holds.length] at inside
      omega
    · rw [List.getElem?_eq_none (Nat.le_refl _)] at isChunk
      cases isChunk
    · exact describes
  labelled := holds.labelled_concat (by simp [content])

/-- A label that is defined changes no chunk. -/
theorem label (isLabel : item.isLabel = true) {label : SymbolId}
    (found : table.find? item.label = some label)
    (known : table.get? label = some
      { name := item.label, meaning := .label (sect.here id), line := item.line })
    (pending : List SymbolId) :
    ({ sect with pending } : Section).Holds read directory table id (items ++ [item]) where
  length := by simp [Item.contents_concat, isLabel, holds.length]
  described := by
    rw [Item.contents_concat, if_pos isLabel, List.append_nil]
    exact holds.described
  labelled := holds.labelled_concat fun _ => ⟨label, found, known⟩

end Section.Holds

end

/-- The sections of an object have different names and hold the items given for their names. -/
structure Object.Follows (read : FileReader) (directory : String) (items : String → List Item)
    (noBits : String → Bool) (object : Object) : Prop where
  nodup : (object.sections.map Section.name).Nodup
  holds : ∀ (id : Nat) sect, object.sections[id]? = some sect →
    sect.Holds read directory object.table id (items sect.name) ∧ sect.noBits = noBits sect.name
  absent : ∀ name ∉ object.sections.map Section.name, items name = [] ∧ noBits name = false

namespace Object

variable {read : FileReader} {directory : String} {items : String → List Item}
  {noBits : String → Bool} {object next : Object} {id : Nat} {sect : Section}

/-- A change that keeps a section's name keeps all names. -/
theorem names_modifySection (object : Object) (id : Nat) {change : Section → Section}
    (same : ∀ sect, (change sect).name = sect.name) :
    (object.modifySection id change).sections.map Section.name =
      object.sections.map Section.name := by
  refine List.ext_getElem? fun place => ?_
  rw [List.getElem?_map, List.getElem?_map, getElem?_modifySection]
  split
  · cases object.sections[place]? <;> simp [same]
  · rfl

namespace Follows

variable (follows : object.Follows read directory items noBits)
include follows

/-- One section changes with the items that are given for its name, while the table grows. -/
theorem modify (found : object.sections[id]? = some sect) {table : SymbolTable}
    (lasts : object.table.Lasts table) {change : Section → Section}
    (sameName : ∀ sect, (change sect).name = sect.name) {later : String → List Item}
    {marks : String → Bool}
    (others : ∀ name, name ≠ sect.name → later name = items name ∧ marks name = noBits name)
    (holds : (change sect).Holds read directory table id (later sect.name))
    (marked : (change sect).noBits = marks sect.name) :
    ({ object with table }.modifySection id change).Follows read directory later marks where
  nodup := by
    rw [names_modifySection _ id sameName]
    exact follows.nodup
  holds := by
    intro place other there
    rw [getElem?_modifySection] at there
    split at there
    · next here =>
      subst here
      obtain ⟨_, was, rfl⟩ := Option.map_eq_some_iff.mp there
      cases found.symm.trans was
      rw [sameName]
      exact ⟨holds, marked⟩
    · next elsewhere =>
      -- Sections elsewhere have other names.
      have different : other.name ≠ sect.name := by
        intro same
        have first := congrArg (Option.map Section.name) found
        have second := congrArg (Option.map Section.name) there
        rw [← List.getElem?_map, Option.map_some] at first second
        obtain ⟨inside, _⟩ := List.getElem?_eq_some_iff.mp first
        exact elsewhere ((List.getElem?_inj inside follows.nodup).mp
          (first.trans (same ▸ second.symm)))
      rw [(others _ different).1, (others _ different).2]
      obtain ⟨held, mark⟩ := follows.holds place other there
      exact ⟨held.mono lasts, mark⟩
  absent := by
    intro name missing
    rw [names_modifySection _ id sameName] at missing
    have different : name ≠ sect.name := by
      rintro rfl
      exact missing (List.mem_map_of_mem (List.mem_of_getElem? found))
    rw [(others name different).1, (others name different).2]
    exact follows.absent name missing

/-- A section is opened under a name that none has, or is there. -/
theorem openSection (name : String) :
    let opened := object.openSection name
    opened.1.Follows read directory items noBits ∧
      (opened.1.sections.map Section.name)[opened.2]? = some name ∧
      ∀ other, other ∈ opened.1.sections.map Section.name ↔
        other ∈ object.sections.map Section.name ∨ other = name := by
  unfold Object.openSection findSection?
  dsimp only
  split
  · next id known =>
    obtain ⟨inside, named, _⟩ := List.findIdx?_eq_some_iff_getElem.mp known
    have here : (object.sections.map Section.name)[id]? = some name := by
      rw [List.getElem?_map, List.getElem?_eq_getElem inside, Option.map_some, eq_of_beq named]
    refine ⟨follows, here, fun other => ⟨.inl, ?_⟩⟩
    rintro (there | rfl)
    · exact there
    · exact List.mem_of_getElem? here
  · next none =>
    have missing : name ∉ object.sections.map Section.name := by
      simpa [List.findIdx?_eq_none_iff, List.mem_map] using none
    refine ⟨⟨?_, ?_, ?_⟩, by simp, by simp⟩
    · rw [List.map_append, List.nodup_append_comm]
      exact List.nodup_cons.mpr ⟨missing, follows.nodup⟩
    · intro id sect there
      rcases getElem?_concat_eq_some.mp there with before | ⟨rfl, rfl⟩
      · exact follows.holds id sect before
      · obtain ⟨noItems, noMark⟩ := follows.absent name missing
        rw [noItems, noMark]
        exact ⟨.empty name, rfl⟩
    · intro other absent
      rw [List.map_append, List.mem_append, not_or] at absent
      exact follows.absent other absent.1

section

variable {name : String} (named : (object.sections.map Section.name)[id]? = some name)
include named

/-- A section is marked by what its description says. -/
theorem mark (more : Bool) :
    let marked := object.modifySection id fun sect => { sect with noBits := sect.noBits || more }
    marked.Follows read directory items (Function.update noBits name (noBits name || more)) ∧
      marked.sections.map Section.name = object.sections.map Section.name := by
  rw [List.getElem?_map, Option.map_eq_some_iff] at named
  obtain ⟨sect, found, rfl⟩ := named
  obtain ⟨held, marked⟩ := follows.holds id sect found
  refine ⟨?_, names_modifySection _ id fun _ => rfl⟩
  refine follows.modify found (.refl _) ?_ ?_ ?_ ?_
  · exact fun _ => rfl
  · exact fun name different => ⟨rfl, Function.update_of_ne different _ _⟩
  · exact ⟨held.length, held.described, held.labelled⟩
  · rw [Function.update_self, marked]

/-- An item is added to the section of a name. -/
theorem addItem {item : Item} (added : object.addItem read directory id item = (next, none)) :
    next.Follows read directory (Function.update items name (items name ++ [item])) noBits ∧
      next.sections.map Section.name = object.sections.map Section.name := by
  rw [List.getElem?_map, Option.map_eq_some_iff] at named
  obtain ⟨sect, found, rfl⟩ := named
  obtain ⟨held, mark⟩ := follows.holds id sect found
  have others : ∀ name, name ≠ sect.name →
      Function.update items sect.name (items sect.name ++ [item]) name = items name ∧
        noBits name = noBits name :=
    fun name different => ⟨Function.update_of_ne different _ _, rfl⟩
  have grown : Function.update items sect.name (items sect.name ++ [item]) sect.name =
      items sect.name ++ [item] := Function.update_self ..
  unfold Object.addItem at added
  split at added
  · next isLabel =>
    split at added
    · cases added
    · cases result : object.defineLabel id item.label item.line with | mk after rest =>
      obtain ⟨label, none | problem⟩ := rest
      · simp only [result, Option.map_none, Prod.mk.injEq, and_true] at added
        subst added
        obtain ⟨table, defined, rfl⟩ := (defineLabel_accepted found).mp result
        obtain ⟨lasts, known, means⟩ := SymbolTable.define_accepted defined
        unfold addLabel
        refine ⟨?_, names_modifySection _ id fun _ => rfl⟩
        refine follows.modify found lasts ?_ others ?_ ?_
        · exact fun _ => rfl
        · rw [grown]
          exact (held.mono lasts).label (decide_eq_true isLabel) known means _
        · exact mark
      · simp [result] at added
  · next kind isContent one =>
    have content : item.isLabel = false := by
      rw [Item.isLabel, one]
      exact decide_eq_false fun same => isContent (List.cons.inj same).1
    simp only [found, Option.map_some] at added
    split at added
    · cases added
    · next body repeats table built =>
      cases added
      obtain ⟨lasts, stand, times⟩ := Building.formulas_of_chunk built
      unfold Object.append
      refine ⟨?_, names_modifySection _ id fun _ => rfl⟩
      refine follows.modify found lasts ?_ others ?_ ?_
      · exact fun _ => rfl
      · rw [grown]
        exact (held.mono lasts).append content ⟨rfl, ⟨kind, one, ⟨_, _, built⟩, stand⟩, times⟩
      · exact mark
  · cases added

/-- Adding items puts them behind those of their section. -/
theorem addItems {list : List Item} {label : String} {index : Nat}
    (added : object.addItems read directory id label index list = (next, none)) :
    next.Follows read directory (Function.update items name (items name ++ list)) noBits ∧
      next.sections.map Section.name = object.sections.map Section.name := by
  induction list generalizing object items index with
  | nil =>
    cases added
    rw [List.append_nil, Function.update_eq_self]
    exact ⟨follows, rfl⟩
  | cons item rest ih =>
    unfold Object.addItems at added
    split at added
    · next middle first =>
      obtain ⟨one, names⟩ := follows.addItem named first
      obtain ⟨all, sameNames⟩ := ih one (names ▸ named) added
      rw [Function.update_self, Function.update_idem, List.append_assoc] at all
      exact ⟨all, sameNames.trans names⟩
    · cases added

end

/-- The items of described sections are added to those that are there. -/
theorem addSections {sections : List DescribedSection}
    (added : object.addSections read directory sections = (next, none)) :
    next.Follows read directory
        (fun name => items name ++
          (sections.filter fun described => described.name = name).flatMap DescribedSection.items)
        (fun name => noBits name ||
          sections.any fun described => described.name = name && described.noBits) ∧
      ∀ name, name ∈ next.sections.map Section.name ↔
        name ∈ object.sections.map Section.name ∨
          name ∈ sections.map DescribedSection.name := by
  induction sections generalizing object items noBits with
  | nil =>
    cases added
    simpa using follows
  | cons described rest ih =>
    obtain ⟨opened, named, names⟩ := follows.openSection described.name
    unfold Object.addSections at added
    dsimp only at added
    split at added
    · next middle first =>
      obtain ⟨marked, markedNames⟩ := opened.mark named described.noBits
      rw [← markedNames] at named
      obtain ⟨filled, sameNames⟩ := marked.addItems named first
      obtain ⟨all, allNames⟩ := ih filled added
      refine ⟨?_, fun name => ?_⟩
      · convert all using 2 with name name
        · by_cases same : described.name = name
          · subst same
            simp
          · simp [same, Function.update_of_ne (Ne.symm same)]
        · by_cases same : described.name = name
          · subst same
            simp [Bool.or_assoc]
          · simp [same, Function.update_of_ne (Ne.symm same)]
      · rw [allNames, sameNames, markedNames, names, List.map_cons, List.mem_cons, or_assoc]
    · next refused => exact absurd added (refused next)

end Follows

/-- A definition leaves the sections alone. -/
theorem sections_define {name : String} {meaning : Meaning} {line : Int}
    {result : SymbolId × Option Error}
    (defined : object.define name meaning line = (next, result)) :
    next.sections = object.sections := by
  cases defined
  rfl

theorem sections_addImports (object : Object) (imports : List Import) :
    (object.addImports imports).1.sections = object.sections := by
  induction imports generalizing object with
  | nil => rfl
  | cons entry rest ih =>
    unfold addImports
    split
    · next defined => rw [ih, sections_define defined]
    · next defined => exact sections_define defined

theorem sections_addEqus (object : Object) (equs : List (String × String)) :
    (object.addEqus equs).1.sections = object.sections := by
  induction equs generalizing object with
  | nil => rfl
  | cons entry rest ih =>
    unfold addEqus
    split
    · rfl
    · split
      · next defined => rw [ih, sections_define defined]
      · next defined =>
        have kept := sections_define defined
        exact kept

end Object

/-- A description that is built has a section for each name in it and no other. A section holds one
chunk for each item that is no label, of all described sections of its name and in their order, with
the item's line and what the item describes, where the current position in every formula is that of
the chunk itself. Every label is at the chunk of the next item that is none, or at the end. A
section has no bytes of its own exactly if one of the described sections says so. -/
theorem Description.build_places_items {description : Description} {read : FileReader}
    {directory : String} {maxPasses : Int} {object : Object}
    (built : description.build read directory { maxPasses } = (object, none)) :
    (object.sections.map Section.name).Nodup ∧
    (∀ name, name ∈ object.sections.map Section.name ↔
      name ∈ description.sections.map DescribedSection.name) ∧
    ∀ (id : Nat) sect, object.sections[id]? = some sect →
      sect.Holds read directory object.table id
        ((description.sections.filter fun described => described.name = sect.name).flatMap
          DescribedSection.items) ∧
      (sect.noBits = true ↔ ∃ described ∈ description.sections,
        described.name = sect.name ∧ described.noBits = true) := by
  unfold build at built
  split at built
  · next imported imports =>
    split at built
    · next defined equs =>
      have fresh : defined.sections = [] := by
        have first := Object.sections_addImports { maxPasses } description.imports
        have second := imported.sections_addEqus description.sortedEqus
        rw [imports] at first
        rw [equs] at second
        exact second.trans first
      have start : defined.Follows read directory (fun _ => []) fun _ => false := by
        refine ⟨?_, ?_, fun _ _ => ⟨rfl, rfl⟩⟩ <;> simp [fresh]
      obtain ⟨follows, names⟩ := start.addSections built
      refine ⟨follows.nodup, fun name => ?_, fun id sect found => ?_⟩
      · rw [names, fresh]
        simp
      · obtain ⟨holds, noBits⟩ := follows.holds id sect found
        refine ⟨holds, ?_⟩
        rw [noBits]
        simp
    · next refused => exact absurd built (refused object)
  · next refused => exact absurd built (refused object)

/-- A section in two parts with another one between them, labels in both parts, and a repeat count
that pads from the first label on. -/
def interrupted : Description where
  sections :=
    [{ name := "s"
       items := [{ label := "a", line := 1 }, { data := some ["$ - c", "b"], line := 2 },
        { label := "b", line := 3 }] },
      { name := "t", items := [{ reserve := "4", line := 4 }] },
      { name := "s"
        noBits := true
        items := [{ string := "x", times := "8 - ($ - a)", line := 5 },
          { label := "c", line := 6 }] }]

/-- The second part goes behind the first, and its repeat count is counted from there. -/
theorem interrupted_places_items :
    ∃ object sect chunk, interrupted.build (Workspace.read {}) "" {} = (object, none) ∧
      object.sections.map Section.name = ["s", "t"] ∧ object.sections[0]? = some sect ∧
      sect.noBits = true ∧ sect.chunks[1]? = some chunk ∧
      chunk.repeats = some ⟨8, [⟨-1, .place ⟨0, 1, 0⟩⟩, ⟨1, .symbol 1⟩]⟩ ∧
      Section.Holds (Workspace.read {}) "" object.table 0
        [{ label := "a", line := 1 }, { data := some ["$ - c", "b"], line := 2 },
          { label := "b", line := 3 }, { string := "x", times := "8 - ($ - a)", line := 5 },
          { label := "c", line := 6 }] sect := by
  have facts : (interrupted.build (Workspace.read {}) "" {}).2 = none ∧
      ((interrupted.build (Workspace.read {}) "" {}).1.sections.map fun sect =>
        (sect.name, sect.noBits, sect.chunks.map Chunk.repeats)) =
        [("s", true, [none, some ⟨8, [⟨-1, .place ⟨0, 1, 0⟩⟩, ⟨1, .symbol 1⟩]⟩]),
          ("t", false, [none])] := by decide +kernel
  cases built : interrupted.build (Workspace.read {}) "" {} with | mk object error =>
  rw [built] at facts
  obtain ⟨rfl, sections⟩ := facts
  obtain ⟨_, _, held⟩ := Description.build_places_items built
  have names := congrArg (List.map Prod.fst) sections
  rw [List.map_map] at names
  have first := congrArg (fun list => list[0]?) sections
  simp only [List.getElem?_map, Option.map_eq_some_iff, List.getElem?_cons_zero, Prod.mk.injEq]
    at first
  obtain ⟨sect, found, name, noBits, repeats⟩ := first
  have second := congrArg (fun list => list[1]?) repeats
  simp only [List.getElem?_map, Option.map_eq_some_iff, List.getElem?_cons_succ,
    List.getElem?_cons_zero] at second
  obtain ⟨chunk, chunkAt, counts⟩ := second
  have holds := (held 0 sect found).1
  rw [name] at holds
  exact ⟨object, sect, chunk, rfl, names, found, noBits, chunkAt, counts, holds⟩

end Assembler
