import Assembler.Format.Basic

/-!
# Program descriptions

A description lists the sections of a program with their items, the EQUs and the imported symbols.
An item says what one chunk holds, or is a label. It has fields for every kind of chunk, and exactly
one of those that name a kind has to be there.
-/

namespace Assembler

/-- The kinds of items. -/
inductive ItemKind where
  | label
  | bytes
  | string
  | data
  | leb128
  | reserve
  | incbin
  | align
  | org
  | jmp
  | jcc
  | call
  | ret
  | nop
  | movImm
deriving DecidableEq

/-- The name of an item's kind. -/
def ItemKind.text : ItemKind → String
  | .label => "label"
  | .bytes => "bytes"
  | .string => "string"
  | .data => "data"
  | .leb128 => "leb128"
  | .reserve => "reserve"
  | .incbin => "incbin"
  | .align => "align"
  | .org => "org"
  | .jmp => "jmp"
  | .jcc => "jcc"
  | .call => "call"
  | .ret => "ret"
  | .nop => "nop"
  | .movImm => "movImm"

/-- A register and the formula of the value that it is loaded with. -/
structure MovImm where
  register : String := ""
  value : String := ""
deriving DecidableEq

/-- An item of a section. An empty text, a zero and `false` are as good as absent. -/
structure Item where
  label : String := ""
  bytes : Option (List Int) := none
  string : String := ""
  data : Option (List String) := none
  leb128 : String := ""
  reserve : String := ""
  incbin : String := ""
  align : UInt64 := 0
  org : Option UInt64 := none
  jmp : String := ""
  jcc : String := ""
  call : String := ""
  ret : Bool := false
  nop : Int := 0
  movImm : Option MovImm := none
  /-- The width in bits of each value of data; zero stands for eight. -/
  size : UInt64 := 0
  signed : Bool := false
  /-- The size in bytes of each reserved item; zero stands for one. -/
  itemSize : UInt64 := 0
  start : String := ""
  maxLength : String := ""
  fill : Option UInt8 := none
  maxSkip : String := ""
  /-- Alignment is filled with instructions without effect. -/
  code : Bool := false
  condition : String := ""
  form : String := ""
  times : String := ""
  line : Int := 0
deriving DecidableEq

/-- The kinds that an item's fields name, in order. -/
def Item.kinds (item : Item) : List ItemKind :=
  [(!item.label.isEmpty, .label), (item.bytes.isSome, .bytes), (!item.string.isEmpty, .string),
    (item.data.isSome, .data), (!item.leb128.isEmpty, .leb128), (!item.reserve.isEmpty, .reserve),
    (!item.incbin.isEmpty, .incbin), (item.align != 0, .align), (item.org.isSome, .org),
    (!item.jmp.isEmpty, .jmp), (!item.jcc.isEmpty, .jcc), (!item.call.isEmpty, .call),
    (item.ret, .ret), (item.nop != 0, .nop), (item.movImm.isSome, .movImm)].filterMap
      fun (present, kind) => if present then some kind else none

/-- An imported symbol, with its address if that is known. -/
structure Import where
  name : String := ""
  address : Option UInt64 := none
deriving DecidableEq

/-- A section of a description. -/
structure DescribedSection where
  name : String := ""
  noBits : Bool := false
  items : List Item := []
deriving DecidableEq

/-- A description of a program. -/
structure Description where
  version : Int := 0
  format : String := ""
  output : String := ""
  entry : String := ""
  baseAddress : UInt64 := 0
  maxPasses : Int := 0
  imports : List Import := []
  /-- The EQUs with the formulas of their values. -/
  equs : List (String × String) := []
  sections : List DescribedSection := []
deriving DecidableEq

namespace Description

/-- Put the usual values in place of those that are absent. -/
def normalize (description : Description) : Description :=
  { description with
    version := if description.version = 0 then 1 else description.version
    format := if description.format.isEmpty then "bin" else description.format
    sections := description.sections.map fun sect =>
      if sect.name.isEmpty then { sect with name := ".text" } else sect }

/-- The addresses of imported symbols. The last one given for a name counts. -/
def importAddresses (description : Description) : List (String × UInt64) :=
  description.imports.foldl (fun known entry =>
    match entry.address with
    | none => known
    | some address =>
      known.filter (fun (name, _) => name ≠ entry.name) ++ [(entry.name, address)]) []

/-- The EQUs in the order of their names. -/
def sortedEqus (description : Description) : List (String × String) :=
  description.equs.mergeSort fun left right => left.1 ≤ right.1

/-- The formats that a description can be written in. -/
def formats (description : Description) : Registry Format :=
  ⟨[.flat { origin := description.baseAddress },
    .elf
      { baseAddress := description.baseAddress
        entry := description.entry
        externs := description.importAddresses },
    .listing { origin := description.baseAddress }].map fun format => (format.name, format)⟩

end Description

end Assembler
