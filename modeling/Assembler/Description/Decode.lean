import Assembler.Description.Basic
import Assembler.Yaml.Decode

/-!
# Descriptions as YAML

A description is written as a YAML mapping. Its keys, and those of its parts, are the names of
fields; other keys are refused.
-/

namespace Assembler

open Yaml (Node)

/-- What is wrong with the text of a description. -/
inductive ReadError where
  /-- The text is not YAML, or not that of a description. -/
  | yaml
  | version (number : Int)
deriving DecidableEq

/-- The message of an error; faults in the YAML have none of their own. -/
def ReadError.message : ReadError → String
  | .yaml => "yaml"
  | .version number => "unsupported version " ++ toString number

/-- Set a field to what was read; a null leaves it as it is. -/
def setField {α β : Type} (read : Option (Option α)) (set : α → β) (unchanged : β) : Option β :=
  read.map fun value => (value.map set).getD unchanged

/-- Set a field of an import. -/
def Import.set (entry : Import) (name : String) (node : Node) : Option Import :=
  match name with
  | "name" => setField node.asText (fun name => { entry with name }) entry
  | "address" => setField node.asWord (fun address => { entry with address := some address }) entry
  | _ => none

/-- Set a field of a register load. -/
def MovImm.set (load : MovImm) (name : String) (node : Node) : Option MovImm :=
  match name with
  | "reg" => setField node.asText (fun register => { load with register }) load
  | "value" => setField node.asText (fun value => { load with value }) load
  | _ => none

/-- Set a field of an item. -/
def Item.set (item : Item) (name : String) (node : Node) : Option Item :=
  let text (put : String → Item) := setField node.asText put item
  let word (put : UInt64 → Item) := setField node.asWord put item
  let number (put : Int → Item) := setField node.asInt put item
  let flag (put : Bool → Item) := setField node.asBool put item
  match name with
  | "label" => text fun label => { item with label }
  | "bytes" =>
    setField (node.asList Node.asInt) (fun bytes => { item with bytes := some bytes }) item
  | "string" => text fun string => { item with string }
  | "data" => setField (node.asList Node.asText) (fun data => { item with data := some data }) item
  | "leb128" => text fun leb128 => { item with leb128 }
  | "reserve" => text fun reserve => { item with reserve }
  | "incbin" => text fun incbin => { item with incbin }
  | "align" => word fun align => { item with align }
  | "org" => word fun org => { item with org := some org }
  | "jmp" => text fun jmp => { item with jmp }
  | "jcc" => text fun jcc => { item with jcc }
  | "call" => text fun call => { item with call }
  | "ret" => flag fun ret => { item with ret }
  | "nop" => number fun nop => { item with nop }
  | "movImm" =>
    setField (node.asRecord {} MovImm.set) (fun load => { item with movImm := some load }) item
  | "size" => word fun size => { item with size }
  | "signed" => flag fun signed => { item with signed }
  | "itemSize" => word fun itemSize => { item with itemSize }
  | "start" => text fun start => { item with start }
  | "maxLen" => text fun maxLength => { item with maxLength }
  | "fill" => setField node.asByte (fun fill => { item with fill := some fill }) item
  | "maxSkip" => text fun maxSkip => { item with maxSkip }
  | "code" => flag fun code => { item with code }
  | "cond" => text fun condition => { item with condition }
  | "form" => text fun form => { item with form }
  | "times" => text fun times => { item with times }
  | "line" => number fun line => { item with line }
  | _ => none

/-- Set a field of a section. -/
def DescribedSection.set (described : DescribedSection) (name : String) (node : Node) :
    Option DescribedSection :=
  match name with
  | "name" => setField node.asText (fun name => { described with name }) described
  | "nobits" => setField node.asBool (fun noBits => { described with noBits }) described
  | "items" =>
    setField (node.asList fun item => item.asRecord {} Item.set)
      (fun items => { described with items }) described
  | _ => none

namespace Description

/-- Set a field of a description. -/
def set (description : Description) (name : String) (node : Node) : Option Description :=
  let text (put : String → Description) := setField node.asText put description
  let number (put : Int → Description) := setField node.asInt put description
  match name with
  | "version" => number fun version => { description with version }
  | "format" => text fun format => { description with format }
  | "output" => text fun output => { description with output }
  | "entry" => text fun entry => { description with entry }
  | "baseAddress" =>
    setField node.asWord (fun baseAddress => { description with baseAddress }) description
  | "maxPasses" => number fun maxPasses => { description with maxPasses }
  | "extern" =>
    setField (node.asList fun entry => entry.asRecord {} Import.set)
      (fun imports => { description with imports }) description
  | "equ" => setField node.asTable (fun equs => { description with equs }) description
  | "sections" =>
    setField (node.asList fun part => part.asRecord {} DescribedSection.set)
      (fun sections => { description with sections }) description
  | _ => none

/-- The description that a document stands for, before the usual values are put in. A text without a
document, or with a null, is an empty description. -/
def ofNode (node : Option Node) : Option Description :=
  match node with
  | none => some {}
  | some node => (node.asRecord {} set).map fun description => description.getD {}

/-- Read a description. Only the first version is known. -/
def ofText (text : String) : Except ReadError Description :=
  match (Yaml.Node.ofText text).bind ofNode with
  | none => .error .yaml
  | some description =>
    if 1 < description.version then .error (.version description.version)
    else .ok description.normalize

end Description

end Assembler
