import Assembler.Chunk.Preparation
import Assembler.Section.Basic

/-!
# The layout of a section

`Section.layout` prepares every chunk, relaxes the section and records the result. It depends on the
symbols, the limit on passes, the number of the section and the section alone: sections are laid out
independently of each other.
-/

namespace Assembler

/-- Chunks that are prepared, with the spans and problems that came up. -/
structure Prepared where
  chunks : List Chunk := []
  spans : List Span := []
  problems : List LayoutProblem := []

/-- Prepare chunks in order, the first of which has the number given. -/
def prepareAll (table : SymbolTable) (sectionId : Nat) : Nat → List Chunk → Except Dangling Prepared
  | _, [] => .ok {}
  | index, chunk :: rest =>
    match chunk.prepare table sectionId index with
    | (_, .error (.dangling reference)) => .error reference
    | (prepared, .error (.problem error)) => do
      let others ← prepareAll table sectionId (index + 1) rest
      return { others with
        chunks := prepared :: others.chunks
        problems := { index := some index, error } :: others.problems }
    | (prepared, .ok spans) => do
      let others ← prepareAll table sectionId (index + 1) rest
      return { others with chunks := prepared :: others.chunks, spans := spans ++ others.spans }

/-- A section that was laid out, with the reports and the growths on the way. -/
structure Layout where
  sect : Section
  diagnostics : List Diagnostic
  growths : List Growth

namespace Section

/-- The report of a layout problem. A problem of a chunk names its line. -/
def reportProblem (sect : Section) (problem : LayoutProblem) : Diagnostic :=
  match problem.index with
  | some index =>
    { severity := .error
      line := ((sect.chunks[index]?).map Chunk.line).getD 0
      sectionName := sect.name
      error := problem.error }
  | none => { severity := .internal, sectionName := sect.name, error := problem.error }

/-- Lay out a section. A limit on passes that is not positive lets the number of spans decide. -/
def layout (sect : Section) (table : SymbolTable) (maxPasses : Int) (id : Nat) :
    Except Dangling Layout := do
  let prepared ← prepareAll table id 0 sect.chunks
  let relaxed := Relaxation.settle
    { home := id
      slots := prepared.chunks.map Chunk.slot
      spans := prepared.spans
      problems := prepared.problems } maxPasses
  return {
    sect :=
      { sect with
        chunks := List.zipWith (fun chunk slot => { chunk with slot }) prepared.chunks relaxed.slots
        spans := relaxed.spans
        relocs := []
        size := relaxed.size
        laidOut := true
        failed := !relaxed.problems.isEmpty
        stats :=
          { passes := relaxed.passes
            spans := prepared.spans.length
            expansions := relaxed.expansions
            retired := relaxed.retired } }
    diagnostics := relaxed.problems.map sect.reportProblem
    growths := relaxed.growths }

end Section

namespace Layout

/-- The line that a log has for a growth. -/
def growthText (layout : Layout) (growth : Growth) : String :=
  let kind := (layout.sect.chunks[growth.index]?.map fun chunk => chunk.kind.text).getD ""
  "expanded bytecode index=" ++ toString growth.index ++ " kind=" ++ kind ++ " span=" ++
    toString growth.span ++ " value=" ++ toString growth.distance.toInt ++ " from=" ++
    toString growth.before.toNat ++ " to=" ++ toString growth.after.toNat

/-- The line that a log has for the end of a layout. -/
def summaryText (layout : Layout) : String :=
  let stats := layout.sect.stats
  "section laid out bytecodes=" ++ toString layout.sect.chunks.length ++ " size=" ++
    toString layout.sect.size.toNat ++ " passes=" ++ toString stats.passes ++ " spans=" ++
    toString stats.spans ++ " expansions=" ++ toString stats.expansions ++ " retired=" ++
    toString stats.retired

/-- The log of a layout. -/
def log (layout : Layout) : List String :=
  (layout.growths.map layout.growthText ++ [layout.summaryText]).map fun text =>
    "DEBUG " ++ layout.sect.name ++ ": " ++ text

end Layout

end Assembler
