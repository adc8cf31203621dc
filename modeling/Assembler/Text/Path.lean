/-!
# Paths

A path is a text whose parts are separated by slashes. Paths are cleaned and joined as texts,
without a look at any file.
-/

namespace Assembler.Text.Path

/-- Whether a path starts at the root. -/
def isAbsolute (path : String) : Bool := path.toList.head? = some '/'

/-- The parts of a path between its slashes; a part may be empty. -/
def parts (path : String) : List String := path.splitOn "/"

/-- Take up one more part: nothing for an empty one or a dot, and one part less for two dots. The
parts are in reverse. -/
def step (rooted : Bool) (reversed : List String) (part : String) : List String :=
  if part.isEmpty || part = "." then reversed
  else if part = ".." then
    match reversed with
    | [] => if rooted then [] else [".."]
    | last :: rest => if last = ".." then ".." :: reversed else rest
  else part :: reversed

/-- The shortest path that leads to the same place, as far as the text alone shows. -/
def clean (path : String) : String :=
  let rooted := isAbsolute path
  let kept := ((parts path).foldl (step rooted) []).reverse
  let text := "/".intercalate kept
  if rooted then "/" ++ text else if text.isEmpty then "." else text

/-- The path of a file in a directory. -/
def join (directory file : String) : String :=
  if directory.isEmpty then if file.isEmpty then "" else clean file
  else clean (directory ++ "/" ++ file)

/-- The directory that a path names a file in. -/
def directory (path : String) : String :=
  clean (String.ofList (path.toList.reverse.dropWhile fun char => char ≠ '/').reverse)

/-- The last part of a path from its last point on; empty when it has none. -/
def extension (path : String) : String :=
  let last := path.toList.reverse.takeWhile fun char => char ≠ '/'
  if last.contains '.' then
    "." ++ String.ofList (last.takeWhile fun char => char ≠ '.').reverse
  else ""

/-- A path without its extension. -/
def stem (path : String) : String :=
  String.ofList (path.toList.take (path.length - (extension path).length))

end Assembler.Text.Path
