import Assembler.Yaml.Node
import Assembler.Yaml.Scalar

/-!
# Values of nodes

What a node stands for where a text, a number, a truth value, a list or a record is wanted. A result
of `none` is a fault, and `some none` is a null, which leaves a field as it is.
-/

namespace Assembler.Yaml

/-- Decode bytes in base 64, of which four characters stand for three; ends of lines are passed
over. -/
def decodeBase64 (text : String) : Option (List UInt8) :=
  let alphabet := "ABCDEFGHIJKLMNOPQRSTUVWXYZabcdefghijklmnopqrstuvwxyz0123456789+/".toList
  let chars := text.toList.filter fun char => char ≠ '\n' && char ≠ '\r'
  groups alphabet chars.length chars
where
  /-- Decode groups of four characters. -/
  groups (alphabet : List Char) : Nat → List Char → Option (List UInt8)
    | _, [] => some []
    | fuel + 1, first :: second :: third :: fourth :: rest => do
      let a ← alphabet.idxOf? first
      let b ← alphabet.idxOf? second
      if third = '=' then
        if fourth = '=' && rest.isEmpty then return [(a * 4 + b / 16).toUInt8] else none
      else
        let c ← alphabet.idxOf? third
        let bytes := [(a * 4 + b / 16).toUInt8, (b % 16 * 16 + c / 4).toUInt8]
        if fourth = '=' then if rest.isEmpty then return bytes else none
        else
          let d ← alphabet.idxOf? fourth
          return bytes ++ (c % 4 * 64 + d).toUInt8 :: (← groups alphabet fuel rest)
    | _, _ => none

/-- What a scalar stands for. A tag that names a kind has to agree with the spelling. -/
def ScalarForm.resolve (form : ScalarForm) (text : String) : Option Resolved :=
  match form with
  | .plain => some (Scalar.resolve text)
  | .quoted => some .text
  | .tagged tag =>
    match tag, Scalar.resolve text with
    | "!!null", resolved => if resolved = .null then some .null else none
    | "!!timestamp", resolved => if resolved = .timestamp then some .timestamp else none
    | "!!bool", .boolean value => some (.boolean value)
    | "!!bool", _ => none
    | "!!int", .integer value => some (.integer value)
    | "!!int", _ => none
    | "!!float", .float value => some (.float value)
    | "!!float", .integer value =>
      if value ≤ Int64.maxValue.toInt then some (.float (.finite value)) else none
    | "!!float", _ => none
    | _, _ => some .text

/-- The text of a scalar, which may be given as bytes. -/
def ScalarForm.text (form : ScalarForm) (text : String) : Option String :=
  if form = .tagged "!!binary" then
    (decodeBase64 text).bind fun bytes => String.fromUTF8? ⟨bytes.toArray⟩
  else some text

namespace Node

/-- The node itself, or the one that an alias stands for; none for an alias inside its own node. -/
def follow : Node → Option Node
  | .alias _ target => some target
  | .loop _ => none
  | node => some node

/-- The form and text of a scalar. -/
def asScalar (node : Node) : Option (ScalarForm × String × Resolved) := do
  match ← node.follow with
  | .scalar form text => return (form, text, ← form.resolve text)
  | _ => none

/-- The text of a node: every scalar has one but a null. -/
def asText (node : Node) : Option (Option String) := do
  let (form, text, resolved) ← node.asScalar
  if resolved = .null then return none else return some (← form.text text)

/-- The truth value of a node. -/
def asBool (node : Node) : Option (Option Bool) := do
  let (_, text, resolved) ← node.asScalar
  match resolved with
  | .null => return none
  | .boolean value => return some value
  | .text =>
    if Scalar.oldTrue.contains text then return some true
    else if Scalar.oldFalse.contains text then return some false
    else none
  | _ => none

/-- The number of a node as a signed word. Floats lose their fraction, and those below all words
become the least one, as does the first one above them all. -/
def asInt (node : Node) : Option (Option Int) := do
  let (_, _, resolved) ← node.asScalar
  match resolved with
  | .null => return none
  | .integer value => if value ≤ Int64.maxValue.toInt then return some value else none
  | .float (.finite whole) =>
    if Int64.maxValue.toInt + 1 < whole then none
    else if whole = Int64.maxValue.toInt + 1 || whole < Int64.minValue.toInt then
      return some Int64.minValue.toInt
    else return some whole
  | .float (.infinite true) => return some Int64.minValue.toInt
  | _ => none

/-- The word with the highest bit alone. -/
def highestBit : UInt64 := 0x8000000000000000

/-- The number of a node as an unsigned word. Floats lose their fraction, and negative ones wrap;
those below all signed words, and the first one above all words, become the word with the highest
bit alone. -/
def asWord (node : Node) : Option (Option UInt64) := do
  let (_, _, resolved) ← node.asScalar
  match resolved with
  | .null => return none
  | .integer value => if 0 ≤ value then return some (UInt64.ofNat value.toNat) else none
  | .float (.finite whole) =>
    if UInt64.size < whole then none
    else if whole = UInt64.size || whole < Int64.minValue.toInt then return some highestBit
    else return some (UInt64.ofNat (whole % UInt64.size).toNat)
  | .float (.infinite true) => return some highestBit
  | _ => none

/-- The number of a node as a byte. -/
def asByte (node : Node) : Option (Option UInt8) := do
  match ← node.asWord with
  | none => return none
  | some word => if word < 256 then return some word.toUInt8 else none

/-- Whether a node is a null. -/
def isNull (node : Node) : Bool :=
  ((node.asScalar.map fun (_, _, resolved) => resolved).getD .text) = .null

/-- The list of a node, read element by element; nulls are left out. -/
def asList {α : Type} (read : Node → Option (Option α)) (node : Node) :
    Option (Option (List α)) := do
  match ← node.follow with
  | .sequence items => return some ((← items.mapM read).filterMap id)
  | other => if other.isNull then return none else none

/-! ## Records -/

/-- Whether a key asks for the pairs of other mappings. -/
def isMergeKey : Node → Bool
  | .scalar form text => text = "<<" && (form = .plain || form = .tagged "!!merge")
  | _ => false

/-- Whether two keys of one mapping are the same as written. -/
def sameKey : Node → Node → Bool
  | .scalar _ left, .scalar _ right => left = right
  | .sequence _, .sequence _ => true
  | .mapping _, .mapping _ => true
  | .alias left _, .alias right _ => left = right
  | .alias left _, .loop right => left = right
  | .loop left, .alias right _ => left = right
  | .loop left, .loop right => left = right
  | _, _ => false

/-- Whether no key of a mapping is written twice. -/
def keysDiffer : List (Node × Node) → Bool
  | [] => true
  | (key, _) :: rest => rest.all (fun (other, _) => !sameKey key other) && keysDiffer rest

/-- The pairs that a mapping has itself, with the texts of their keys. Null keys are left out. -/
def ownPairs (pairs : List (Node × Node)) : Option (List (String × Node)) := do
  let named ← (pairs.filter fun (key, _) => !key.isMergeKey).mapM fun (key, value) => do
    return (← key.asText).map fun name => (name, value)
  return named.filterMap id

/-- The keys of a mapping that are texts by themselves. -/
def textKeys (pairs : List (Node × Node)) : List String :=
  pairs.filterMap fun (key, _) =>
    match key.asScalar with
    | some (form, text, .text) => form.text text
    | _ => none

/-- The pairs of a list whose keys are new. -/
def newPairs : List String → List (String × Node) → List (String × Node)
  | _, [] => []
  | known, (name, value) :: rest =>
    if known.contains name then newPairs known rest
    else (name, value) :: newPairs (name :: known) rest

/-- The pairs with new keys of a mapping, with those that it asks for itself beyond them. -/
def addedPairs (known : List String) (pairs : List (Node × Node))
    (below : List String → Option (List (String × Node))) : Option (List (String × Node)) := do
  if !keysDiffer pairs then none
  else
    let added := newPairs known (← ownPairs pairs)
    return added ++ (← below (added.map Prod.fst ++ known))

mutual

/-- The pairs with new keys that a mapping, or a list of mappings, has to merge. -/
def mergedPairs (known : List String) (inList : Bool) : Node → Option (List (String × Node))
  | .mapping pairs => addedPairs known pairs fun known => mergedBelow known pairs
  | .alias _ (.mapping pairs) => addedPairs known pairs fun known => mergedBelow known pairs
  | .sequence items => if inList then none else mergedFromList known items
  | _ => none

/-- The pairs that a list of mappings has to merge. -/
def mergedFromList (known : List String) : List Node → Option (List (String × Node))
  | [] => some []
  | node :: rest => do
    let added ← mergedPairs known true node
    return added ++ (← mergedFromList (added.map Prod.fst ++ known) rest)

/-- The pairs that a mapping asks for by its merge key. -/
def mergedBelow (known : List String) : List (Node × Node) → Option (List (String × Node))
  | [] => some []
  | (key, value) :: rest =>
    if key.isMergeKey then mergedPairs known false value else mergedBelow known rest

end

/-- The pairs of a mapping. -/
structure Pairs where
  own : List (String × Node)
  merged : List (String × Node)

/-- The pairs of a node; none for a null. -/
def asPairs (node : Node) : Option (Option Pairs) := do
  match ← node.follow with
  | .mapping pairs =>
    if !keysDiffer pairs then none
    else return some ⟨← ownPairs pairs, ← mergedBelow (textKeys pairs) pairs⟩
  | other => if other.isNull then return none else none

/-- Read a record field by field. `set` takes the name of a field and its node. No field may be set
twice by pairs of the mapping itself. -/
def asRecord {α : Type} (empty : α) (set : α → String → Node → Option α) (node : Node) :
    Option (Option α) := do
  match ← node.asPairs with
  | none => return none
  | some pairs =>
    if !(pairs.own.map Prod.fst).Nodup then none
    else return some (← (pairs.own ++ pairs.merged).foldlM (fun record (name, value) =>
      set record name value) empty)

/-- Put a text in a table of texts, in place of an older one with its name. -/
def putText (table : List (String × String)) (name text : String) : List (String × String) :=
  table.filter (fun (other, _) => other ≠ name) ++ [(name, text)]

/-- Read a table of texts. A null is an empty text, but does not replace another one by merging. -/
def asTable (node : Node) : Option (Option (List (String × String))) := do
  match ← node.asPairs with
  | none => return none
  | some pairs =>
    let own ← pairs.own.foldlM (fun table (name, value) => do
      return putText table name ((← value.asText).getD "")) []
    let merged ← pairs.merged.foldlM (fun table (name, value) => do
      match ← value.asText with
      | some text => return putText table name text
      | none => return if (table.lookup name).isSome then table else putText table name "") own
    return some merged

end Node

end Assembler.Yaml
