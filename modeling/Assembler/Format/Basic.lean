import Assembler.Format.Elf
import Assembler.Format.FlatImage
import Assembler.Format.Listing
import Assembler.Format.Registry

/-!
# Output formats

A format places an object, emits it and turns it into a file, which is binary or a text.
-/

namespace Assembler

/-- A format with its configuration. -/
inductive Format where
  | flat (image : FlatImage)
  | elf (config : Elf)
  | listing (listing : Listing)
deriving DecidableEq

/-- The content of a file. -/
inductive Artifact where
  | binary (bytes : List UInt8)
  | text (content : String)
deriving DecidableEq

/-- The bytes of a file. -/
def Artifact.bytes : Artifact → List UInt8
  | binary content => content
  | text content => content.toUTF8.data.toList

namespace Format

/-- The name of a format. -/
def name : Format → String
  | .flat _ => "bin"
  | .elf _ => "elf"
  | .listing _ => "listing"

/-- Place and emit an object in a format. -/
def write (format : Format) (object : Object) :
    Except Dangling (Object × Except Error Artifact) := do
  match format with
  | .flat image =>
    let (written, result) ← image.write object
    return (written, result.map .binary)
  | .elf config =>
    let (written, result) ← config.write object
    return (written, result.map .binary)
  | .listing config =>
    let (written, result) ← config.write object
    return (written, result.map .text)

end Format

end Assembler
