import Assembler.Command.Options
import Assembler.Description.Build
import Assembler.Description.Decode
import Assembler.Report.Dump
import Assembler.Report.Printer

/-!
# The command

The command assembles descriptions one after the other. It reads each, builds and lays out its
object, writes the output, and reports what was wrong. It works through a `FileAccess`, so that it
runs on a workspace as well as on a disk.
-/

namespace Assembler.Command

/-- Why an input failed. -/
inductive InputError where
  /-- There were reports that stop the output. -/
  | reported
  | read (path : String) (problem : FileProblem)
  | description (path : String) (problem : ReadError)
  | build (problem : BuildError)
  | format (problem : Error)
  | dangling (problem : Dangling)
  | dump (problem : FileProblem)
  | output (problem : FileProblem)

/-- The wording of the failure of an input; reports have been printed by themselves. -/
def InputError.message? : InputError → Option String
  | .reported => none
  | .read path problem => some ("read " ++ path ++ ": " ++ problem.message)
  | .description path problem => some ("parse " ++ path ++ ": " ++ problem.message)
  | .build problem => some problem.message
  | .format problem => some problem.message
  | .dangling problem => problem.message
  | .dump problem => some ("create layout dump: " ++ problem.message)
  | .output problem => some ("write output: " ++ problem.message)

/-- The path of the output for a description with a path. -/
def outputPath (path : String) (description : Description) (options : Options) : String :=
  if !options.output.isEmpty then options.output
  else if !description.output.isEmpty then
    if Text.Path.isAbsolute description.output then description.output
    else Text.Path.join (Text.Path.directory path) description.output
  else
    let stem := Text.Path.stem path
    if description.format = "elf" then if stem = path then stem ++ ".elf" else stem
    else if description.format = "listing" then stem ++ ".lst"
    else stem ++ "." ++ description.format

/-- What became of an input. -/
structure Assembled where
  /-- The reports that were printed. -/
  reports : List Diagnostic := []
  /-- The log of the layout. -/
  log : List String := []
  error : Option InputError := none

/-- An object that was laid out and, if that went well, written in a format. -/
structure Product where
  object : Object
  log : List String
  /-- Whether a section could not be laid out. -/
  layoutFailed : Bool
  /-- The content of the output. -/
  content : Except Error Artifact

/-- Lay an object out and write it in a format. -/
def produce (format : Format) (object : Object) : Except Dangling Product := do
  let (placed, layouts) ← object.layout
  let log := layouts.flatMap Layout.log
  match Error.all (layouts.filterMap Layout.error) with
  | some error => return ⟨placed, log, true, .error error⟩
  | none =>
    let (written, content) ← format.write placed
    return ⟨written, log, false, content⟩

/-- The description in a file, with the options put in. -/
def describe (path : String) (options : Options) (bytes : List UInt8) :
    Except InputError Description :=
  match (Text.ofBytes? bytes).map Description.ofText with
  | none => .error (.description path .yaml)
  | some (.error problem) => .error (.description path problem)
  | some (.ok description) =>
    .ok { description with
      format := if options.format.isEmpty then description.format else options.format
      baseAddress := if options.base = 0 then description.baseAddress else options.base
      maxPasses := if options.maxPasses = 0 then description.maxPasses else options.maxPasses }

/-- Build the object of a description and produce its output. -/
def assembleDescription (description : Description) (read : FileReader) (directory : String) :
    Except InputError Product :=
  match description.formats.find description.format with
  | .error problem => .error (.format problem)
  | .ok format =>
    match description.build read directory { maxPasses := description.maxPasses } with
    | (_, some problem) => .error (.build problem)
    | (object, none) => (produce format object).mapError .dangling

section

variable {m : Type → Type} [Monad m]

/-- Read files ahead of their use. -/
def readAhead (access : FileAccess m) : List String → m FileReader
  | [] => return fun path => .error ⟨"open", path, .missing⟩
  | path :: rest => do
    let content ← access.read path
    let others ← readAhead access rest
    return fun wanted => if wanted = path then content else others wanted

/-- Write the state of a layout next to an output, if that is asked for. -/
def writeDump (access : FileAccess m) (options : Options) (path : String) (object : Object) :
    m (Except FileProblem Unit) :=
  if options.dump then
    access.write (path ++ ".layout.yaml") (Text.toBytes (Dump.render object)) false
  else return .ok ()

/-- Finish an input whose object is laid out. -/
def finish (access : FileAccess m) (options : Options) (path : String) (description : Description)
    (product : Product) : m Assembled := do
  let output := outputPath path description options
  let log := product.log
  match ← writeDump access options output product.object with
  | .error problem => return { log, error := some (.dump problem) }
  | .ok () =>
    let reports := product.object.diagnostics
    if product.layoutFailed || product.object.hasErrors then
      return { reports, log, error := some .reported }
    else
      match product.content with
      | .error problem => return { reports, log, error := some (.format problem) }
      | .ok artifact =>
        match ← access.write output artifact.bytes (description.format = "elf") with
        | .error problem => return { reports, log, error := some (.output problem) }
        | .ok () => return { reports, log }

/-- Assemble the description with a path. -/
def assemble (access : FileAccess m) (options : Options) (path : String) : m Assembled := do
  match ← access.read path with
  | .error problem => return { error := some (.read path problem) }
  | .ok bytes =>
    match describe path options bytes with
    | .error problem => return { error := some problem }
    | .ok description =>
      let directory := Text.Path.directory path
      let read ← readAhead access (description.binaryPaths directory)
      match assembleDescription description read directory with
      | .error problem => return { error := some problem }
      | .ok product => finish access options path description product

/-- Why a run failed. -/
inductive RunError where
  | noInputs
  | manyInputs (count : Nat)
  | inputsFailed (failed total : Nat)
deriving DecidableEq

/-- The wording of the failure of a run. -/
def RunError.message : RunError → String
  | .noInputs => "no input files"
  | .manyInputs count => "-o needs exactly one input, got " ++ toString count
  | .inputsFailed failed total =>
    toString failed ++ " of " ++ toString total ++ " inputs failed"

/-- What a run leaves behind besides files. -/
structure Outcome where
  /-- What was printed. -/
  printed : String := ""
  exitCode : UInt32 := 0
  error : Option RunError := none

/-- What is printed about an input. -/
def inputText (color debug : Bool) (path : String) (assembled : Assembled) : String :=
  (if debug then String.join (assembled.log.map fun line => line ++ "\n") else "") ++
    Report.lines color path assembled.reports ++
    match assembled.error.bind InputError.message? with
    | some message => path ++ ": " ++ message ++ "\n"
    | none => ""

/-- Assemble the descriptions with some paths. -/
def assembleAll (access : FileAccess m) (color : Bool) (options : Options) (paths : List String) :
    m Outcome := do
  let results ← paths.mapM fun path => do return (path, ← assemble access options path)
  let printed := String.join (results.map fun (path, assembled) =>
    inputText color options.debug path assembled)
  let summary := Report.summary (results.flatMap fun (_, assembled) => assembled.reports)
  let failed := results.countP fun (_, assembled) => assembled.error.isSome
  if failed = 0 then return { printed := printed ++ summary }
  else
    return {
      printed := printed ++ summary
      exitCode := 1
      error := some (.inputsFailed failed paths.length) }

/-- Run the command with its arguments. -/
def run (access : FileAccess m) (color : Bool) (arguments : List String) : m Outcome := do
  let parsed := Options.parse {} arguments
  match parsed.result with
  | .error stop =>
    match stop.message? with
    | none => return { printed := Options.usage }
    | some message => return { printed := message ++ "\n" ++ Options.usage, exitCode := 2 }
  | .ok [] => return { printed := Options.usage, exitCode := 1, error := some .noInputs }
  | .ok paths =>
    if !parsed.options.output.isEmpty && 1 < paths.length then
      return { exitCode := 1, error := some (.manyInputs paths.length) }
    else assembleAll access color parsed.options paths

end

end Assembler.Command
