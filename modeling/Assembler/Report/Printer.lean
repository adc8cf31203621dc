import Assembler.Error
import Assembler.Text.Escape

/-!
# Printed reports

Each report is printed on a line with the file it is about. On a terminal its severity is colored.
Elsewhere, terminal escapes in its message, which may quote the input, are taken out.
-/

namespace Assembler

/-- The style of a severity on a terminal, as the parameters of a control sequence. -/
def Severity.style? (severity : Severity) : Option String :=
  if severity = .warning then some "1;33"
  else if severity = .error then some "1;31"
  else if severity = .internal then some "1;35"
  else none

namespace Report

/-- The text of a severity, in its style if colors are asked for. -/
def severityText (color : Bool) (severity : Severity) : String :=
  match color, severity.style? with
  | true, some style => "\x1b[" ++ style ++ "m" ++ severity.text ++ "\x1b[m"
  | _, _ => severity.text

/-- What stands in front of the severity: the file and the line, as far as they are known. -/
def origin (file : String) (line : Int) : String :=
  let known := (if file.isEmpty then "" else file ++ ":") ++
    (if 0 < line then toString line ++ ":" else "")
  if known.isEmpty then "" else known ++ " "

/-- The line of a report about a file. -/
def line (color : Bool) (file : String) (diagnostic : Diagnostic) : String :=
  let message := diagnostic.error.message
  origin file diagnostic.line ++ severityText color diagnostic.severity ++ ": " ++
    (if diagnostic.sectionName.isEmpty then "" else "[" ++ diagnostic.sectionName ++ "] ") ++
    (if color then message else Text.Escape.strip message) ++ "\n"

/-- The lines of reports about a file. -/
def lines (color : Bool) (file : String) (diagnostics : List Diagnostic) : String :=
  String.join (diagnostics.map (line color file))

/-- The number of reports that stop the output. -/
def errorCount (diagnostics : List Diagnostic) : Nat :=
  diagnostics.countP fun diagnostic => diagnostic.severity.isError

/-- The number of reports that do not stop the output. -/
def warningCount (diagnostics : List Diagnostic) : Nat :=
  diagnostics.countP fun diagnostic => !diagnostic.severity.isError

/-- The line that counts reports; nothing when there are none. -/
def summary (diagnostics : List Diagnostic) : String :=
  if diagnostics.isEmpty then ""
  else
    toString (warningCount diagnostics) ++ " warning(s), " ++ toString (errorCount diagnostics) ++
      " error(s)\n"

end Report

end Assembler
