import Assembler.Text.Path

/-!
# Workspaces

Files are read and written through a `FileAccess`. A workspace is a tree of files below a working
directory. It stands for the files that a run may read and write; what lies outside it is not there,
apart from the directories that lead to it.
-/

namespace Assembler

/-- Why a file could not be read or written. -/
inductive FileReason where
  | missing
  | notDirectory
  | isDirectory
  | nameTooLong
  | invalidName
  /-- A reason that only the machine knows. -/
  | other (text : String)
deriving DecidableEq

/-- The wording of a reason. -/
def FileReason.text : FileReason → String
  | .missing => "no such file or directory"
  | .notDirectory => "not a directory"
  | .isDirectory => "is a directory"
  | .nameTooLong => "file name too long"
  | .invalidName => "invalid argument"
  | .other text => text

/-- A file that could not be read or written, with the step that failed. -/
structure FileProblem where
  /-- The step that failed: `open` or `read`. -/
  action : String
  path : String
  reason : FileReason
deriving DecidableEq

/-- The wording of a file problem. -/
def FileProblem.message (problem : FileProblem) : String :=
  problem.action ++ " " ++ problem.path ++ ": " ++ problem.reason.text

/-- Access to files, with effects of some kind. -/
structure FileAccess (m : Type → Type) where
  read : String → m (Except FileProblem (List UInt8))
  /-- Write a file. A new one may be made executable, one that is there keeps its permissions. -/
  write : String → List UInt8 → Bool → m (Except FileProblem Unit)

/-- A file of a workspace. -/
structure WorkspaceFile where
  /-- The parts of the path from the working directory on. -/
  path : List String
  bytes : List UInt8
  executable : Bool := false
deriving DecidableEq

/-- The files below a working directory. -/
structure Workspace where
  files : List WorkspaceFile := []
deriving DecidableEq

namespace Workspace

/-- Where the parts of a path lead to. -/
inductive Spot where
  /-- A directory of the workspace, or the working directory. -/
  | directory (path : List String)
  | file (file : WorkspaceFile)
  /-- A directory that leads to the working directory. -/
  | outside
  /-- A name that a directory of the workspace does not have. -/
  | vacant (path : List String)

/-- The file with a path. -/
def find? (workspace : Workspace) (path : List String) : Option WorkspaceFile :=
  workspace.files.find? fun file => file.path = path

/-- Whether a path is that of a directory. -/
def isDirectory (workspace : Workspace) (path : List String) : Bool :=
  path.isEmpty || workspace.files.any fun file =>
    path.length < file.path.length && file.path.take path.length = path

/-- Follow one part of a path. -/
def step (workspace : Workspace) (spot : Spot) (part : String) : Except FileReason Spot :=
  match spot with
  | .file _ => .error .notDirectory
  | .vacant _ => .error .missing
  | .outside =>
    if part.isEmpty || part = "." || part = ".." then .ok .outside
    else if 255 < part.utf8ByteSize then .error .nameTooLong
    else .error .missing
  | .directory path =>
    if part.isEmpty || part = "." then .ok spot
    else if part = ".." then .ok (if path.isEmpty then .outside else .directory path.dropLast)
    else if 255 < part.utf8ByteSize then .error .nameTooLong
    else
      let next := path ++ [part]
      match workspace.find? next with
      | some file => .ok (.file file)
      | none => .ok (if workspace.isDirectory next then .directory next else .vacant next)

/-- Follow a path from the working directory, or from the root. -/
def locate (workspace : Workspace) (path : String) : Except FileReason Spot :=
  if path.isEmpty then .error .missing
  else if path.toList.contains (Char.ofNat 0) then .error .invalidName
  else if 4096 ≤ path.utf8ByteSize then .error .nameTooLong
  else
    (Text.Path.parts path).foldlM workspace.step
      (if Text.Path.isAbsolute path then .outside else .directory [])

/-- Read a file. -/
def read (workspace : Workspace) (path : String) : Except FileProblem (List UInt8) :=
  match workspace.locate path with
  | .error reason => .error ⟨"open", path, reason⟩
  | .ok (.vacant _) => .error ⟨"open", path, .missing⟩
  | .ok .outside | .ok (.directory _) => .error ⟨"read", path, .isDirectory⟩
  | .ok (.file file) => .ok file.bytes

/-- A path without slashes at its end. -/
def withoutSlashes (path : String) : String :=
  String.ofList (path.toList.reverse.dropWhile fun char => char = '/').reverse

/-- Write a file. A new one gets the permission given, one that is there keeps its own. A path with
a slash at its end can only be that of a directory. -/
def write (workspace : Workspace) (path : String) (bytes : List UInt8) (executable : Bool) :
    Except FileProblem Workspace :=
  let name := withoutSlashes path
  if name.isEmpty && !path.isEmpty then .error ⟨"open", path, .isDirectory⟩
  else
    match workspace.locate name with
    | .error reason => .error ⟨"open", path, reason⟩
    | .ok .outside | .ok (.directory _) => .error ⟨"open", path, .isDirectory⟩
    | .ok (.vacant place) =>
      if name = path then .ok ⟨workspace.files ++ [{ path := place, bytes, executable }]⟩
      else .error ⟨"open", path, .isDirectory⟩
    | .ok (.file file) =>
      if name = path then
        .ok ⟨workspace.files.map fun other =>
          if other.path = file.path then { other with bytes } else other⟩
      else .error ⟨"open", path, .isDirectory⟩

/-- Access to the files of a workspace that is kept as a state. -/
def access : FileAccess (StateM Workspace) where
  read path := return (← get).read path
  write path bytes executable := do
    match (← get).write path bytes executable with
    | .ok next =>
      set next
      return .ok ()
    | .error problem => return .error problem

end Workspace

end Assembler
