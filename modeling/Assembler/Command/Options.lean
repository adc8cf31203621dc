import Assembler.Text.Literal
import Assembler.Text.Quoted

/-!
# Options of the command

The arguments of the command are options, and then the paths of descriptions. An option begins with
one or two dashes. Its value follows an equals sign or is the next argument, but an option that is
on or off takes a value only behind an equals sign.
-/

namespace Assembler

/-- The options of the command. -/
structure Options where
  /-- The format to write; empty for the one that the description names. -/
  format : String := ""
  /-- The path of the output; empty for the usual one. -/
  output : String := ""
  debug : Bool := false
  dump : Bool := false
  /-- The limit of passes; zero for that of the description. -/
  maxPasses : Int := 0
  /-- The base address; zero for that of the description. -/
  base : UInt64 := 0
deriving DecidableEq

namespace Options

/-- Why the options end before the paths. -/
inductive Stop where
  /-- Help was asked for. -/
  | help
  | badOption (argument : String)
  | unknownOption (name : String)
  | missingValue (name : String)
  | badFlag (name value : String)
  | badNumber (name value : String) (problem : Text.Literal.Problem)
deriving DecidableEq

/-- The wording of a problem with a number. -/
def problemText : Text.Literal.Problem → String
  | .malformed => "parse error"
  | .outOfRange => "value out of range"

/-- The wording of a problem with the options; a wish for help is none. -/
def Stop.message? : Stop → Option String
  | .help => none
  | .badOption argument => some ("bad flag syntax: " ++ argument)
  | .unknownOption name => some ("flag provided but not defined: -" ++ name)
  | .missingValue name => some ("flag needs an argument: -" ++ name)
  | .badFlag name value =>
    some ("invalid boolean value " ++ Text.quote value ++ " for -" ++ name ++ ": parse error")
  | .badNumber name value problem =>
    some ("invalid value " ++ Text.quote value ++ " for flag -" ++ name ++ ": " ++
      problemText problem)

/-- The text that explains the command. -/
def usage : String :=
  "Usage: asmlayout [flags] <program.yaml>...\n\n" ++
  "Lay out and emit assembler program descriptions.\n\n" ++
  "Flags:\n" ++
  "  -base uint\n    \tBase address. Overrides the description\n" ++
  "  -debug\n    \tEnable debug logging\n" ++
  "  -dump\n    \tWrite the layout state as YAML next to each output\n" ++
  "  -format string\n    \tOutput format (bin, elf, listing). Overrides the description\n" ++
  "  -max-passes int\n    \tOptimizer pass limit per section (0 picks one from the span count)\n" ++
  "  -o string\n    \tOutput file. Only valid with a single input\n"

/-- The value of an option that is on or off. -/
def readFlag (text : String) : Option Bool :=
  if ["1", "t", "T", "TRUE", "true", "True"].contains text then some true
  else if ["0", "f", "F", "FALSE", "false", "False"].contains text then some false
  else none

/-- Set an option that is on or off; none when there is no such option. -/
def setFlag (options : Options) (name : String) (value : Bool) : Option Options :=
  match name with
  | "debug" => some { options with debug := value }
  | "dump" => some { options with dump := value }
  | _ => none

/-- Set an option to a value; none when there is no such option. -/
def setValue (options : Options) (name value : String) : Option (Except Stop Options) :=
  match name with
  | "format" => some (.ok { options with format := value })
  | "o" => some (.ok { options with output := value })
  | "max-passes" =>
    match Text.Literal.readSigned value.toList with
    | .ok maxPasses => some (.ok { options with maxPasses })
    | .error problem => some (.error (.badNumber name value problem))
  | "base" =>
    match Text.Literal.readUnsigned value.toList with
    | .ok base => some (.ok { options with base })
    | .error problem => some (.error (.badNumber name value problem))
  | _ => none

/-- Set an option to a value. -/
def assign (options : Options) (name value : String) : Except Stop Options :=
  (options.setValue name value).getD (.error (.unknownOption name))

/-- What an argument is. -/
inductive Argument where
  /-- The first path. -/
  | path
  /-- The mark behind the last option. -/
  | separator
  | faulty
  | option (name : String) (value : Option String)
deriving DecidableEq

/-- The name and the value of an option. -/
def splitOption (text : List Char) : Argument :=
  let name := text.takeWhile fun char => char ≠ '='
  let value := (text.dropWhile fun char => char ≠ '=')
  .option (String.ofList name)
    (if value.isEmpty then none else some (String.ofList (value.drop 1)))

/-- Tell what an argument is. -/
def classify (argument : String) : Argument :=
  match argument.toList with
  | '-' :: '-' :: rest =>
    match rest with
    | [] => .separator
    | first :: _ => if first = '-' || first = '=' then .faulty else splitOption rest
  | '-' :: first :: rest => if first = '=' then .faulty else splitOption (first :: rest)
  | _ => .path

/-- What was made of the arguments: the options so far, and the paths or the reason to stop. -/
structure Parsed where
  options : Options
  result : Except Stop (List String)

/-- Read options up to the first path. -/
def parse (options : Options) : List String → Parsed
  | [] => ⟨options, .ok []⟩
  | argument :: rest =>
    match classify argument with
    | .path => ⟨options, .ok (argument :: rest)⟩
    | .separator => ⟨options, .ok rest⟩
    | .faulty => ⟨options, .error (.badOption argument)⟩
    | .option name value =>
      if (options.setFlag name true).isSome then
        match readFlag (value.getD "true") with
        | some on => parse ((options.setFlag name on).getD options) rest
        | none => ⟨options, .error (.badFlag name (value.getD ""))⟩
      else if (options.setValue name "").isNone then
        ⟨options, .error (if name = "help" || name = "h" then .help else .unknownOption name)⟩
      else
        match value with
        | some value =>
          match options.assign name value with
          | .ok next => parse next rest
          | .error stop => ⟨options, .error stop⟩
        | none =>
          match rest with
          | value :: behind =>
            match options.assign name value with
            | .ok next => parse next behind
            | .error stop => ⟨options, .error stop⟩
          | [] => ⟨options, .error (.missingValue name)⟩

end Options

end Assembler
