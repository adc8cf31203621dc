import Assembler.Command.Basic

/-!
# The program

Runs the command on the files of the machine, and prints to standard error.
-/

namespace Assembler.Command

/-- The reason that an error of the machine stands for. -/
def reasonOf : IO.Error → FileReason
  | .noFileOrDirectory _ _ _ => .missing
  | .inappropriateType _ 21 _ => .isDirectory
  | .inappropriateType _ _ _ => .notDirectory
  | error => .other (toString error)

/-- Whether a file is there and can be read. -/
def isPresent (path : String) : IO Bool := do
  try
    discard <| IO.FS.Handle.mk path .read
    return true
  catch _ => return false

/-- Permission to read, write and execute for the owner, and to read and execute for others. -/
def executableRights : IO.FileRight where
  user := { read := true, write := true, execution := true }
  group := { read := true, execution := true }
  other := { read := true, execution := true }

/-- Access to the files of the machine. -/
def machine : FileAccess IO where
  read path := do
    try
      return .ok (← IO.FS.readBinFile path).data.toList
    catch error =>
      let reason := reasonOf error
      return .error ⟨if reason = .isDirectory then "read" else "open", path, reason⟩
  write path bytes executable := do
    try
      let present ← isPresent path
      IO.FS.writeBinFile path ⟨bytes.toArray⟩
      if executable && !present then IO.setAccessRights path executableRights
      return .ok ()
    catch error => return .error ⟨"open", path, reasonOf error⟩

end Assembler.Command

/-- Run the command, and end with its exit code. -/
def main (arguments : List String) : IO UInt32 := do
  let color ← (← IO.getStderr).isTty
  let outcome ← Assembler.Command.run Assembler.Command.machine color arguments
  IO.eprint outcome.printed
  if let some error := outcome.error then IO.eprintln ("asmlayout: " ++ error.message)
  return outcome.exitCode
