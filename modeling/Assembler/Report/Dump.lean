import Assembler.Object
import Assembler.Yaml.Tree

/-!
# The layout state as a document

A dump shows the offsets and lengths of every chunk, the spans with their windows, the relocations
and the symbols. Fields without a value are left out.
-/

namespace Assembler.Dump

open Yaml (Tree)

/-- A number. -/
def number (value : Int) : Tree := .verbatim (toString value)

/-- A word. -/
def word (value : UInt64) : Tree := number value.toNat

/-- A text field that is left out when it is empty. -/
def optionalText (key value : String) : List (String × Tree) :=
  if value.isEmpty then [] else [(key, .string value)]

/-- A number field that is left out when it is zero. -/
def optionalNumber (key : String) (value : Int) : List (String × Tree) :=
  if value = 0 then [] else [(key, number value)]

/-- A field that is there only when it is true. -/
def optionalFlag (key : String) (value : Bool) : List (String × Tree) :=
  if value then [(key, .verbatim "true")] else []

/-- A list field that is left out when it is empty. -/
def optionalList (key : String) (items : List Tree) : List (String × Tree) :=
  if items.isEmpty then [] else [(key, .list items)]

/-- The names of symbols. -/
def names (table : SymbolTable) (ids : List SymbolId) : List Tree :=
  ids.map fun id => .string (table.nameOf id)

/-- The entry of a chunk. -/
def chunk (table : SymbolTable) (chunk : Chunk) (index : Nat) : Tree :=
  .record <|
    [("index", number index), ("kind", .string chunk.kind.text)] ++
    (if chunk.kind.role = .none then [] else [("special", .string chunk.kind.role.text)]) ++
    [("offset", .string (if chunk.slot.offset = unknownOffset then "unknown"
        else Text.hexNumber chunk.slot.offset.toNat)),
      ("length", word chunk.slot.length), ("multiple", number chunk.slot.copies.toInt)] ++
    optionalNumber "line" chunk.line ++ optionalList "labels" (names table chunk.labels) ++
    optionalText "error" ((chunk.slot.error.map Error.message).getD "")

/-- The entry of a span. -/
def span (span : Span) : Tree :=
  .record
    [("bytecode", number span.index), ("id", number span.purpose.id),
      ("policy", .string span.purpose.policy.text), ("neg_threshold", number span.low.toInt),
      ("pos_threshold", number span.high.toInt), ("cur_value", number span.seen.toInt),
      ("state", .string span.state.text)]

/-- The entry of a relocation. -/
def reloc (reloc : Reloc) : Tree :=
  .record <|
    [("offset", word reloc.offset), ("symbol", number reloc.symbol),
      ("addend", number reloc.addend.toInt), ("size", word reloc.width)] ++
    optionalFlag "pcrel" reloc.pcRelative ++ optionalFlag "signed" reloc.signed

/-- The work that a layout took. -/
def stats (stats : LayoutStats) : Tree :=
  .record
    [("passes", number stats.passes), ("spans", number stats.spans),
      ("expansions", number stats.expansions), ("retired", number stats.retired)]

/-- The entry of a section. -/
def ofSection (table : SymbolTable) (sect : Section) : Tree :=
  .record <|
    [("name", .string sect.name), ("base", .string (Text.hexNumber sect.base.toNat)),
      ("size", word sect.size)] ++
    optionalFlag "nobits" sect.noBits ++
    (if sect.laidOut then [("stats", stats sect.stats)] else []) ++
    [("bytecodes", .list (sect.chunks.zipIdx.map fun (entry, index) => chunk table entry index))] ++
    optionalList "spans" (sect.spans.map span) ++ optionalList "relocs" (sect.relocs.map reloc) ++
    optionalList "trailing_labels" (names table sect.pending)

/-- What a symbol stands for: a label by its section and offset once that was laid out, an EQU by
its expression. -/
def symbolValue (object : Object) (symbol : Symbol) : String :=
  match symbol.meaning with
  | .label place =>
    match object.getSection place.sectionId with
    | .ok sect =>
      if sect.laidOut then sect.name ++ "+" ++ Text.hexNumber (sect.offsetOf place).toNat else ""
    | .error _ => ""
  | .equ body => body.text
  | .undefined | .imported => ""

/-- The entry of a symbol. -/
def symbol (object : Object) (symbol : Symbol) : Tree :=
  .record <|
    [("name", .string symbol.name), ("kind", .string symbol.meaning.kind.text)] ++
    optionalText "value" (symbolValue object symbol) ++ optionalNumber "line" symbol.line

/-- The layout state of an object. -/
def tree (object : Object) : Tree :=
  .record <|
    [("sections", .list (object.sections.map (ofSection object.table)))] ++
    optionalList "symbols" (object.table.symbols.map (symbol object))

/-- The text of the layout state of an object. -/
def render (object : Object) : String := (tree object).render

end Assembler.Dump
