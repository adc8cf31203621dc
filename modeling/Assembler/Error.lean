import Assembler.BitField
import Assembler.Chunk.Kind
import Assembler.Expr
import Assembler.Leb128
import Assembler.Symbol.Kind
import Assembler.Text.Quoted

/-!
# Errors

`Error` lists what can go wrong with an object, from its expressions to the file written for it.
`Error.message` holds the wording. `Cause` is the coarser view that callers act on: an error has the
causes of everything it reports.
-/

namespace Assembler

/-- The classes of errors that callers tell apart. -/
inductive Cause where
  | tooComplex
  | notConstant
  | circularReference
  | secondaryExpansion
  | orgOverlap
  | noConvergence
  | nonMonotonic
  | undefinedSymbol
  | symbolRedefined
  | valueOverflow
  | valueSize
  | branchOutOfRange
  | negativeMultiple
  | multipleDecreased
  | multipleOffset
  | badAlignment
  | incbinRange
  | relocUnsupported
  | layoutFailed
  | lengthMismatch
  | noBitsData
  | unknownFormat
  | leb128Empty
  | leb128Truncated
deriving DecidableEq

namespace Cause

/-- Every cause, in the order in which reports list them. -/
def all : List Cause :=
  [.tooComplex, .notConstant, .circularReference, .secondaryExpansion, .orgOverlap, .noConvergence,
    .nonMonotonic, .undefinedSymbol, .symbolRedefined, .valueOverflow, .valueSize,
    .branchOutOfRange, .negativeMultiple, .multipleDecreased, .multipleOffset, .badAlignment,
    .incbinRange, .relocUnsupported, .layoutFailed, .lengthMismatch, .noBitsData, .unknownFormat,
    .leb128Empty, .leb128Truncated]

/-- The wording that every message of a cause begins or ends with. -/
def text : Cause → String
  | .tooComplex => "expression too complex"
  | .notConstant => "expression is not constant"
  | .circularReference => "circular reference detected"
  | .secondaryExpansion => "secondary expansion of an external or complex value"
  | .orgOverlap => "ORG overlap with already existing data"
  | .noConvergence => "layout did not converge"
  | .nonMonotonic => "bytecode length decreased during expansion"
  | .undefinedSymbol => "undefined symbol"
  | .symbolRedefined => "symbol redefined"
  | .valueOverflow => "value does not fit"
  | .valueSize => "unsupported value size"
  | .branchOutOfRange => "branch target out of range"
  | .negativeMultiple => "multiple is negative"
  | .multipleDecreased => "multiple moved following data backwards"
  | .multipleOffset => "cannot combine multiple with alignment or origin"
  | .badAlignment => "alignment boundary is not a power of two"
  | .incbinRange => "incbin start past end of data"
  | .relocUnsupported => "relocation not supported by output format"
  | .layoutFailed => "layout has errors"
  | .lengthMismatch => "emitted length does not match layout"
  | .noBitsData => "initialized space declared in nobits section: ignoring"
  | .unknownFormat => "unknown object format"
  | .leb128Empty => "leb128: empty input"
  | .leb128Truncated => "leb128: truncated input"

end Cause

/-- How serious a report is. Levels from `error` on stop the output. -/
structure Severity where
  level : Int
deriving DecidableEq

namespace Severity

/-- A report that does not stop the output. -/
def warning : Severity := ⟨0⟩

/-- A problem of the input. -/
def error : Severity := ⟨1⟩

/-- A broken promise of the assembler itself. -/
def internal : Severity := ⟨2⟩

/-- Whether a report of this severity stops the output. -/
def isError (severity : Severity) : Bool := 1 ≤ severity.level

/-- The names of the severities, by level. -/
def names : List String := ["warning", "error", "internal error"]

/-- The name of a severity. -/
def text (severity : Severity) : String :=
  Text.memberName "Severity" names severity.level

end Severity

/-- The quantities of a chunk that have to be constants. -/
inductive Quantity where
  | reserveCount
  | binaryStart
  | binaryLength
  | alignBoundary
  | alignMaxSkip
  | origin
deriving DecidableEq

/-- The name of a quantity. -/
def Quantity.text : Quantity → String
  | .reserveCount => "reserve count"
  | .binaryStart => "incbin start"
  | .binaryLength => "incbin length"
  | .alignBoundary => "align boundary"
  | .alignMaxSkip => "align max skip"
  | .origin => "org"

/-- What can be wrong with the configuration of an executable. -/
inductive SegmentProblem where
  | offsetTooSmall (offset headers : UInt64)
  | alignmentNotPower (alignment : UInt64)
  | offsetUnaligned (offset alignment : UInt64)
  | baseBelowOffset (base offset : UInt64)
  | baseIncongruent (base offset alignment : UInt64)
  | offsetTooLarge (offset : UInt64)
deriving DecidableEq

/-- The wording of a configuration problem. -/
def SegmentProblem.message : SegmentProblem → String
  | .offsetTooSmall offset headers =>
    "segment offset " ++ Text.hexNumber offset.toNat ++ " too small for ELF headers (" ++
      Text.hexNumber headers.toNat ++ ")"
  | .alignmentNotPower alignment =>
    "segment alignment " ++ Text.hexNumber alignment.toNat ++ " is not a power of two"
  | .offsetUnaligned offset alignment =>
    "segment offset " ++ Text.hexNumber offset.toNat ++ " must be aligned to " ++
      Text.hexNumber alignment.toNat
  | .baseBelowOffset base offset =>
    "base address " ++ Text.hexNumber base.toNat ++ " must be >= segment offset " ++
      Text.hexNumber offset.toNat
  | .baseIncongruent base offset alignment =>
    "base address " ++ Text.hexNumber base.toNat ++ " must be congruent to offset " ++
      Text.hexNumber offset.toNat ++ " modulo " ++ Text.hexNumber alignment.toNat
  | .offsetTooLarge offset =>
    "segment offset " ++ Text.hexNumber offset.toNat ++ " exceeds platform limits"

/-- What can go wrong with an object. -/
inductive Error where
  /-- A refusal whose wording comes from the caller. -/
  | plain (text : String)
  | leb128 (problem : Leb128.Problem)
  | bitField (problem : BitField.Problem)
  -- Expressions
  /-- More than one unresolved symbol, or one with a coefficient other than one. -/
  | tooComplex (expr : Expr)
  /-- A relocation cannot subtract a position of another section. -/
  | foreignOrigin
  | notConstant
  | unresolved (expr : Expr)
  /-- An EQU whose body leads back to it. -/
  | circularEqu (name : String)
  -- Symbols
  | undefinedSymbol (name : String)
  | undefinedId (id : SymbolId)
  | notLabel (name : String) (kind : SymbolKind)
  | missingEntry (name : String)
  | noAddress (name : String)
  | redefined (name : String) (line : Int)
  -- Chunks
  | symbolicLeb128 (name : String)
  | fieldWidth (width : UInt64)
  | displacementWidth (width : UInt64)
  | negativeQuantity (quantity : Quantity) (value : Int)
  | badAlignment (boundary : Int)
  | binaryRange (name : String) (start size : Nat)
  | codeFillEntry (index length : Nat)
  | codeFillEmpty
  | operandOutside (name : String) (index size : Nat)
  -- Repeat counts
  | repeatedSetter
  | negativeRepeat (count : Int)
  | circularRepeat
  | repeatDecreased (old new : Int)
  -- Relaxation
  | originOverlap (offset origin : UInt64)
  | secondaryExpansion (span : Nat)
  | shrank
  | shrankBy (index : Nat) (before after : UInt64)
  | passLimit (limit pending : Nat)
  | budgetSpent (expansions pending : Nat)
  -- Emission
  | notLaidOut (name : String)
  | sectionFailed (name : String)
  | wrongLength (kind : Kind) (index produced : Nat) (expected : UInt64)
  | wideAddend (addend : Int)
  | negativeUnsigned (value : Int)
  | relocUnsupported (name : String)
  | ignoredData (kind : Kind)
  | relocOverrun (offset : UInt64) (size : Nat)
  -- Placement and formats
  | badSectionAlignment (alignment : UInt64)
  | addressSpace (name : String)
  | wrongSectionLength (name : String) (emitted : Nat) (size : UInt64)
  | segment (problem : SegmentProblem)
  | unknownFormat (name : String) (known : List String)
  | namelessFormat (description : String)
  | duplicateFormat (name : String)
  -- Instructions
  | unknownCondition (name : String)
  | unknownRegister (name : String)
  | registerId (id : UInt8)
  | registerWidth (bits : UInt8)
  | noNop (length : Int) (longest : Nat)
  -- Errors inside something
  | inQuantity (quantity : Quantity) (inner : Error)
  | inRepeat (inner : Error)
  | inOperand (name : String) (index : Nat) (inner : Error)
  | inTarget (name : String) (inner : Error)
  | inInstruction (name : String) (inner : Error)
  | branchOutOfRange (inner : Error)
  | lengthMismatch (inner : Error)
  | chunkFailed (index : Nat) (inner : Error)
  | inSection (name : String) (inner : Error)
  | inEntry (inner : Error)
  | inLabel (name : String) (inner : Error)
  | atReloc (offset : UInt64) (inner : Error)
  /-- A report as an error of its own. -/
  | reported (severity : Severity) (line : Int) (sectionName : String) (inner : Error)
  /-- Two errors side by side. -/
  | both (first second : Error)
deriving DecidableEq

namespace Error

/-- The place that a report names, with its severity. -/
def reportHead (severity : Severity) (line : Int) (sectionName : String) : String :=
  let place := (if sectionName.isEmpty then "" else sectionName ++ ":") ++
    (if 0 < line then toString line ++ ":" else "")
  (if place.isEmpty then "" else place ++ " ") ++ severity.text ++ ": "

/-- The wording of an error. -/
def message : Error → String
  | .plain text => text
  | .leb128 problem => problem.message
  | .bitField (.noRoom room width shift needed) =>
    "destination has " ++ toString room ++ " bytes, " ++ toString width.toNat ++
      "-bit value at bit " ++ toString shift.toNat ++ " needs " ++ toString needed.toNat
  | .bitField (.overflow value width check) =>
    Cause.valueOverflow.text ++ ": " ++ toString value ++ " in " ++ toString width.toNat ++
      " bits (" ++ check.text ++ ")"
  | .tooComplex expr => Cause.tooComplex.text ++ ": " ++ expr.text
  | .foreignOrigin => Cause.tooComplex.text ++ ": relative to another section"
  | .notConstant => Cause.notConstant.text
  | .unresolved expr => Cause.notConstant.text ++ ": " ++ expr.text
  | .circularEqu name =>
    Cause.circularReference.text ++ ": EQU " ++ Text.quote name ++ " references itself"
  | .undefinedSymbol name => Cause.undefinedSymbol.text ++ ": " ++ Text.quote name
  | .undefinedId id => Cause.undefinedSymbol.text ++ ": symbol " ++ toString id
  | .notLabel name kind =>
    Cause.undefinedSymbol.text ++ ": " ++ Text.quote name ++ " is " ++ kind.text ++ ", not a label"
  | .missingEntry name => Cause.undefinedSymbol.text ++ ": entry " ++ Text.quote name
  | .noAddress name =>
    Cause.undefinedSymbol.text ++ ": extern " ++ Text.quote name ++ " has no address"
  | .redefined name line =>
    Cause.symbolRedefined.text ++ ": " ++ Text.quote name ++ " (first defined on line " ++
      toString line ++ ")"
  | .symbolicLeb128 name =>
    Cause.notConstant.text ++ ": leb128 of symbol " ++ Text.quote name
  | .fieldWidth width => Cause.valueSize.text ++ ": " ++ toString width.toNat ++ " bits"
  | .displacementWidth width =>
    Cause.valueSize.text ++ ": " ++ toString width.toNat ++ " bit displacement"
  | .negativeQuantity quantity value =>
    quantity.text ++ " is negative (" ++ toString value ++ ")"
  | .badAlignment boundary => Cause.badAlignment.text ++ ": " ++ toString boundary
  | .binaryRange name start size =>
    Cause.incbinRange.text ++ ": " ++ Text.quote name ++ " start " ++ toString start ++ ", size " ++
      toString size
  | .codeFillEntry index length =>
    "align code fill entry " ++ toString index ++ " has " ++ toString length ++ " bytes"
  | .codeFillEmpty => "align code fill has no entries"
  | .operandOutside name index size =>
    name ++ " operand " ++ toString index ++ " lies outside the " ++ toString size ++
      " byte encoding"
  | .repeatedSetter => Cause.multipleOffset.text
  | .negativeRepeat count => Cause.negativeMultiple.text ++ ": " ++ toString count
  | .circularRepeat =>
    Cause.circularReference.text ++ ": multiple depends on its own length"
  | .repeatDecreased old new =>
    Cause.multipleDecreased.text ++ ": from " ++ toString old ++ " to " ++ toString new
  | .originOverlap offset origin =>
    Cause.orgOverlap.text ++ ": at " ++ Text.hexNumber offset.toNat ++ ", origin " ++
      Text.hexNumber origin.toNat
  | .secondaryExpansion span =>
    Cause.secondaryExpansion.text ++ " (span " ++ toString span ++ ")"
  | .shrank => Cause.nonMonotonic.text
  | .shrankBy index before after =>
    Cause.nonMonotonic.text ++ ": bytecode " ++ toString index ++ " went from " ++
      toString before.toNat ++ " to " ++ toString after.toNat ++ " bytes"
  | .passLimit limit pending =>
    Cause.noConvergence.text ++ " after " ++ toString limit ++ " passes (" ++ toString pending ++
      " spans pending)"
  | .budgetSpent expansions pending =>
    Cause.noConvergence.text ++ " after " ++ toString expansions ++ " expansions (" ++
      toString pending ++ " spans pending)"
  | .notLaidOut name => "section " ++ Text.quote name ++ " has not been laid out"
  | .sectionFailed name => Cause.layoutFailed.text ++ ": section " ++ Text.quote name
  | .wrongLength kind index produced expected =>
    Cause.lengthMismatch.text ++ ": " ++ kind.text ++ " bytecode " ++ toString index ++
      " produced " ++ toString produced ++ " bytes, laid out as " ++ toString expected.toNat
  | .wideAddend addend => Cause.valueOverflow.text ++ ": addend " ++ toString addend
  | .negativeUnsigned value =>
    Cause.valueOverflow.text ++ ": negative value " ++ toString value ++ " in unsigned leb128"
  | .relocUnsupported name => Cause.relocUnsupported.text ++ ": reference to " ++ Text.quote name
  | .ignoredData kind => Cause.noBitsData.text ++ " (" ++ kind.text ++ ")"
  | .relocOverrun offset size =>
    "relocation at " ++ Text.hexNumber offset.toNat ++ " overruns " ++ toString size ++
      " byte program"
  | .badSectionAlignment alignment =>
    Cause.badAlignment.text ++ ": section alignment " ++ toString alignment.toNat
  | .addressSpace name => "section " ++ Text.quote name ++ " does not fit in the address space"
  | .wrongSectionLength name emitted size =>
    Cause.lengthMismatch.text ++ ": section " ++ Text.quote name ++ " emitted " ++
      toString emitted ++ " bytes, size " ++ toString size.toNat
  | .segment problem => problem.message
  | .unknownFormat name known =>
    Cause.unknownFormat.text ++ " " ++ Text.quote name ++ " (have [" ++
      " ".intercalate known ++ "])"
  | .namelessFormat description => "format " ++ description ++ " has no name"
  | .duplicateFormat name => "format " ++ Text.quote name ++ " registered twice"
  | .unknownCondition name => "unknown condition " ++ Text.quote name
  | .unknownRegister name => "unknown register " ++ Text.quote name
  | .registerId id => "invalid register id " ++ toString id.toNat
  | .registerWidth bits => "unsupported " ++ toString bits.toNat ++ "-bit register width"
  | .noNop length longest =>
    "no " ++ toString length ++ "-byte nop (1 to " ++ toString longest ++ " supported)"
  | .inQuantity quantity inner => quantity.text ++ ": " ++ inner.message
  | .inRepeat inner => "multiple: " ++ inner.message
  | .inOperand name index inner =>
    name ++ " operand " ++ toString index ++ ": " ++ inner.message
  | .inTarget name inner => name ++ " target: " ++ inner.message
  | .inInstruction name inner => name ++ ": " ++ inner.message
  | .branchOutOfRange inner => Cause.branchOutOfRange.text ++ ": " ++ inner.message
  | .lengthMismatch inner => Cause.lengthMismatch.text ++ ": " ++ inner.message
  | .chunkFailed index inner =>
    Cause.layoutFailed.text ++ ": bytecode " ++ toString index ++ ": " ++ inner.message
  | .inSection name inner => "section " ++ Text.quote name ++ ": " ++ inner.message
  | .inEntry inner => "entry: " ++ inner.message
  | .inLabel name inner => "label " ++ Text.quote name ++ ": " ++ inner.message
  | .atReloc offset inner =>
    "relocation at " ++ Text.hexNumber offset.toNat ++ ": " ++ inner.message
  | .reported severity line sectionName inner =>
    reportHead severity line sectionName ++ inner.message
  | .both first second => first.message ++ "\n" ++ second.message

/-- The causes of everything that an error reports. -/
def causes : Error → List Cause
  | .leb128 .empty => [.leb128Empty]
  | .leb128 (.truncated _) => [.leb128Truncated]
  | .bitField (.overflow ..) | .wideAddend _ | .negativeUnsigned _ => [.valueOverflow]
  | .tooComplex _ | .foreignOrigin => [.tooComplex]
  | .notConstant | .unresolved _ | .symbolicLeb128 _ => [.notConstant]
  | .circularEqu _ | .circularRepeat => [.circularReference]
  | .undefinedSymbol _ | .undefinedId _ | .notLabel .. | .missingEntry _ | .noAddress _ =>
    [.undefinedSymbol]
  | .redefined .. => [.symbolRedefined]
  | .fieldWidth _ | .displacementWidth _ => [.valueSize]
  | .badAlignment _ | .badSectionAlignment _ => [.badAlignment]
  | .binaryRange .. => [.incbinRange]
  | .repeatedSetter => [.multipleOffset]
  | .negativeRepeat _ => [.negativeMultiple]
  | .repeatDecreased .. => [.multipleDecreased]
  | .originOverlap .. => [.orgOverlap]
  | .secondaryExpansion _ => [.secondaryExpansion]
  | .shrank | .shrankBy .. => [.nonMonotonic]
  | .passLimit .. | .budgetSpent .. => [.noConvergence]
  | .sectionFailed _ => [.layoutFailed]
  | .wrongLength .. | .wrongSectionLength .. => [.lengthMismatch]
  | .relocUnsupported _ => [.relocUnsupported]
  | .ignoredData _ => [.noBitsData]
  | .unknownFormat .. => [.unknownFormat]
  | .inQuantity _ inner | .inRepeat inner | .inOperand _ _ inner | .inTarget _ inner
  | .inInstruction _ inner | .inSection _ inner | .inEntry inner | .inLabel _ inner
  | .atReloc _ inner | .reported _ _ _ inner => inner.causes
  | .branchOutOfRange inner => .branchOutOfRange :: inner.causes
  | .lengthMismatch inner => .lengthMismatch :: inner.causes
  | .chunkFailed _ inner => .layoutFailed :: inner.causes
  | .both first second => first.causes ++ second.causes
  | .plain _ | .leb128 (.tooNarrow ..) | .bitField (.noRoom ..) | .negativeQuantity ..
  | .codeFillEntry .. | .codeFillEmpty | .operandOutside .. | .notLaidOut _ | .relocOverrun ..
  | .addressSpace _ | .segment _ | .namelessFormat _ | .duplicateFormat _ | .unknownCondition _
  | .unknownRegister _ | .registerId _ | .registerWidth _ | .noNop .. => []

/-- Errors side by side as one error, in order; none for none. -/
def all : List Error → Option Error
  | [] => none
  | first :: rest =>
    match all rest with
    | none => some first
    | some others => some (.both first others)

end Error

/-- A report about a line of a section. -/
structure Diagnostic where
  severity : Severity
  line : Int := 0
  sectionName : String := ""
  error : Error
deriving DecidableEq

namespace Diagnostic

/-- A report as an error. -/
def toError (diagnostic : Diagnostic) : Error :=
  .reported diagnostic.severity diagnostic.line diagnostic.sectionName diagnostic.error

/-- The text of a report on one line. -/
def text (diagnostic : Diagnostic) : String := diagnostic.toError.message

/-- Whether some report of a list stops the output. -/
def anyError (diagnostics : List Diagnostic) : Bool :=
  diagnostics.any fun diagnostic => diagnostic.severity.isError

/-- The reports of a list that stop the output, as one error. -/
def errors (diagnostics : List Diagnostic) : Option Error :=
  Error.all ((diagnostics.filter fun diagnostic => diagnostic.severity.isError).map toError)

end Diagnostic

end Assembler
