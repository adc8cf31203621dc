import Assembler.Yaml.Lexing

/-!
# YAML nodes

A node is a scalar, a sequence, a mapping, or an alias of another node. `Node.ofText` reads the
first document of a text.
-/

namespace Assembler.Yaml

/-- How a scalar says what it is: by its spelling, by its quotes, or by a tag. -/
inductive ScalarForm where
  | plain
  | quoted
  | tagged (tag : String)
deriving DecidableEq

/-- A node of a document. -/
inductive Node where
  | scalar (form : ScalarForm) (text : String)
  | sequence (items : List Node)
  | mapping (pairs : List (Node × Node))
  | alias (name : String) (target : Node)
  /-- An alias inside the node that it stands for. -/
  | loop (name : String)

/-- A node that was left out. -/
def Node.null : Node := .scalar .plain ""

instance : Inhabited Node := ⟨.null⟩

/-! ## Reading nodes from tokens -/

/-- The state of reading nodes. -/
structure NodeReader.State where
  tokens : List Token
  /-- The anchored nodes, in the order of their beginnings; one that is being read is missing. -/
  anchors : Array (String × Option Node) := #[]
  /-- The short names for tags. -/
  handles : List (String × String) := []

/-- A reader of nodes. -/
abbrev NodeReader := StateT NodeReader.State Option

namespace NodeReader

/-- The next token. -/
def peek : NodeReader Token := do
  match (← get).tokens with
  | token :: _ => return token
  | [] => failure

/-- Pass over the next token. -/
def skip : NodeReader Unit := modify fun state => { state with tokens := state.tokens.drop 1 }

/-- Pass over the next token if it is a given one, and say whether it was. -/
def skipIf (token : Token) : NodeReader Bool := do
  if (← peek) = token then
    skip
    return true
  else return false

/-- Note that a node with an anchor begins. -/
def beginAnchor : Option String → NodeReader Unit
  | none => return
  | some name => modify fun state => { state with anchors := state.anchors.push (name, none) }

/-- Run a reader for a node with an anchor. -/
def anchored (anchor : Option String) (read : NodeReader Node) : NodeReader Node := do
  let position := (← get).anchors.size
  beginAnchor anchor
  let node ← read
  match anchor with
  | none => return node
  | some name =>
    modify fun state =>
      { state with anchors := state.anchors.setIfInBounds position (name, some node) }
    return node

/-- The node that an alias stands for: the last one that began with the anchor. -/
def readAlias (name : String) : NodeReader Node := do
  skip
  match (← get).anchors.toList.reverse.lookup name with
  | none => failure
  | some none => return .loop name
  | some (some target) => return .alias name target

/-- The tag that a handle and a suffix stand for. -/
def expandTag (handle suffix : String) : NodeReader String := do
  if handle.isEmpty then return suffix
  else
    match (← get).handles.lookup handle with
    | some replacement => return replacement ++ suffix
    | none => failure

/-- Read a tag, if there is one. -/
def readTag : NodeReader (Option String) := do
  match ← peek with
  | .tag handle suffix =>
    skip
    return some (← expandTag handle suffix)
  | _ => return none

/-- Read an anchor, if there is one. -/
def readAnchor : NodeReader (Option String) := do
  match ← peek with
  | .anchor name =>
    skip
    return some name
  | _ => return none

/-- Read the anchor and the tag of a node, in either order. -/
def readProperties : NodeReader (Option String × Option String) := do
  match ← readAnchor with
  | some name => return (some name, ← readTag)
  | none =>
    let tag ← readTag
    return (← readAnchor, tag)

/-- The short form of a tag. -/
def shortTag (tag : String) : String :=
  let common := "tag:yaml.org,2002:"
  if tag.startsWith common then "!!" ++ (tag.drop common.length).toString else tag

/-- How a scalar says what it is. -/
def scalarForm (tag : Option String) (plain : Bool) : ScalarForm :=
  match tag with
  | some tag =>
    if tag.isEmpty || tag = "!" then (if plain then .plain else .quoted)
    else .tagged (shortTag tag)
  | none => if plain then .plain else .quoted

/-- Read a node unless a token is next that leaves it out. -/
def orLeftOut (absent : Token → Bool) (read : NodeReader Node) : NodeReader Node := do
  if absent (← peek) then return .null else read

/-- Whether a token of a block mapping follows. -/
def endsBlockPart (token : Token) : Bool :=
  token = .key || token = .value || token = .blockEnd

/-- Whether the end of an entry of a flow sequence follows. -/
def endsSequencePart (token : Token) : Bool := token = .flowEntry || token = .flowSequenceEnd

/-- Whether the end of an entry of a flow mapping follows. -/
def endsMappingPart (token : Token) : Bool := token = .flowEntry || token = .flowMappingEnd

/-- Pass over the comma in front of an entry, and say whether it was there; the first entry has
none. -/
def skipSeparator (first : Bool) : NodeReader Bool :=
  if first then return true else skipIf .flowEntry

mutual

/-- Read a node. `block` says that it may be a block, and `flush` that it may be a sequence whose
dashes are not indented. -/
def readNode (block flush : Bool) : Nat → NodeReader Node
  | 0 => failure
  | fuel + 1 => do
    if let .alias name := ← peek then readAlias name
    else
      let (anchor, tag) ← readProperties
      anchored anchor do
        match ← peek with
        | .scalar text plain =>
          skip
          return .scalar (scalarForm tag plain) text
        | .flowSequenceStart =>
          skip
          return .sequence (← readFlowSequence true fuel)
        | .flowMappingStart =>
          skip
          return .mapping (← readFlowMapping true fuel)
        | .blockEntry =>
          if flush then return .sequence (← readFlushSequence fuel) else leftOut anchor tag
        | .blockSequenceStart =>
          if block then
            skip
            return .sequence (← readBlockSequence fuel)
          else leftOut anchor tag
        | .blockMappingStart =>
          if block then
            skip
            return .mapping (← readBlockMapping fuel)
          else leftOut anchor tag
        | _ => leftOut anchor tag
where
  /-- A node that has only an anchor or a tag. -/
  leftOut (anchor tag : Option String) : NodeReader Node :=
    if anchor.isSome || tag.isSome then return .scalar (scalarForm tag true) "" else failure

/-- Read the entries of a block sequence. -/
def readBlockSequence : Nat → NodeReader (List Node)
  | 0 => failure
  | fuel + 1 => do
    if ← skipIf .blockEntry then
      let node ← orLeftOut (fun token => token = .blockEntry || token = .blockEnd)
        (readNode true false fuel)
      return node :: (← readBlockSequence fuel)
    else if ← skipIf .blockEnd then return []
    else failure

/-- Read the entries of a sequence whose dashes are not indented. -/
def readFlushSequence : Nat → NodeReader (List Node)
  | 0 => failure
  | fuel + 1 => do
    if ← skipIf .blockEntry then
      let node ← orLeftOut (fun token => token = .blockEntry || endsBlockPart token)
        (readNode true false fuel)
      return node :: (← readFlushSequence fuel)
    else return []

/-- Read the pairs of a block mapping. -/
def readBlockMapping : Nat → NodeReader (List (Node × Node))
  | 0 => failure
  | fuel + 1 => do
    if ← skipIf .key then
      let key ← orLeftOut endsBlockPart (readNode true true fuel)
      let value ←
        if ← skipIf .value then orLeftOut endsBlockPart (readNode true true fuel) else pure .null
      return (key, value) :: (← readBlockMapping fuel)
    else if ← skipIf .blockEnd then return []
    else failure

/-- Read the entries of a flow sequence. A pair by itself is a mapping. -/
def readFlowSequence (first : Bool) : Nat → NodeReader (List Node)
  | 0 => failure
  | fuel + 1 => do
    if ← skipIf .flowSequenceEnd then return []
    else if !(← skipSeparator first) then failure
    else if ← skipIf .flowSequenceEnd then return []
    else if ← skipIf .key then
      let pair ← readSinglePair fuel
      return .mapping [pair] :: (← readFlowSequence false fuel)
    else
      let node ← readNode false false fuel
      return node :: (← readFlowSequence false fuel)

/-- Read a pair in a flow sequence. A token that leaves out the key is passed over with it. -/
def readSinglePair : Nat → NodeReader (Node × Node)
  | 0 => failure
  | fuel + 1 => do
    let token ← peek
    let key ←
      if token = .value || endsSequencePart token then
        skip
        pure .null
      else readNode false false fuel
    let value ←
      if ← skipIf .value then orLeftOut endsSequencePart (readNode false false fuel) else pure .null
    return (key, value)

/-- Read the pairs of a flow mapping. -/
def readFlowMapping (first : Bool) : Nat → NodeReader (List (Node × Node))
  | 0 => failure
  | fuel + 1 => do
    if ← skipIf .flowMappingEnd then return []
    else if !(← skipSeparator first) then failure
    else if ← skipIf .flowMappingEnd then return []
    else if ← skipIf .key then
      let key ← orLeftOut (fun token => token = .value || endsMappingPart token)
        (readNode false false fuel)
      let value ←
        if ← skipIf .value then orLeftOut endsMappingPart (readNode false false fuel)
        else pure .null
      return (key, value) :: (← readFlowMapping false fuel)
    else
      let key ← readNode false false fuel
      return (key, .null) :: (← readFlowMapping false fuel)

end

/-! ## Documents -/

/-- The short names for tags that need no directive. -/
def commonHandles : List (String × String) := [("!", "!"), ("!!", "tag:yaml.org,2002:")]

/-- Read the directives of a document, of which each may stand once. -/
def readDirectives : Nat → Bool → List (String × String) → NodeReader (List (String × String))
  | 0, _, _ => failure
  | fuel + 1, versioned, handles => do
    match ← peek with
    | .versionDirective major minor =>
      if versioned || major ≠ 1 || minor ≠ 1 then failure
      else
        skip
        readDirectives fuel true handles
    | .tagDirective handle replacement =>
      if (handles.lookup handle).isSome then failure
      else
        skip
        readDirectives fuel versioned (handles ++ [(handle, replacement)])
    | _ => return handles

/-- Whether a token follows in place of a document's node. -/
def leavesOutRoot : Token → Bool
  | .versionDirective _ _ | .tagDirective _ _ | .documentStart | .documentEnd | .streamEnd => true
  | _ => false

/-- Read the first document, if there is one, and look at the token behind it. -/
def readDocument (fuel : Nat) : NodeReader (Option Node) := do
  match ← peek with
  | .streamEnd => return none
  | .versionDirective _ _ | .tagDirective _ _ | .documentStart =>
    let handles ← readDirectives fuel false []
    modify fun state => { state with handles := handles ++ commonHandles }
    if !(← skipIf .documentStart) then failure
    else
      let node ← orLeftOut leavesOutRoot (readNode true false fuel)
      discard peek
      return some node
  | _ =>
    modify fun state => { state with handles := commonHandles }
    let node ← readNode true false fuel
    discard peek
    return some node

end NodeReader

/-- Read the first document of a text. The outer result is missing when the text is faulty, and the
inner one when there is no document. -/
def Node.ofText (text : String) : Option (Option Node) := do
  let tokens ← Token.ofText text
  let (node, _) ← (NodeReader.readDocument (3 * tokens.length + 3)).run { tokens }
  return node

end Assembler.Yaml
