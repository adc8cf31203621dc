import Assembler.Placement

/-!
# Flat images

A flat image holds the bytes of the sections at their addresses, counted from an origin, and nothing
else. It cannot carry relocations.
-/

namespace Assembler

/-- How a flat image is laid out. -/
structure FlatImage where
  /-- The address of the first byte. -/
  origin : UInt64 := 0
  /-- The alignment of the sections; zero stands for four. -/
  sectionAlign : UInt64 := 0
deriving DecidableEq

namespace FlatImage

/-- The alignment of the sections. -/
def alignment (image : FlatImage) : UInt64 :=
  if image.sectionAlign = 0 then 4 else image.sectionAlign

/-- Join programs into an image, each padded up to its section's address. -/
def join (origin : UInt64) : List UInt8 → List (Section × Program) → Except Error (List UInt8)
  | bytes, [] => .ok bytes
  | bytes, (sect, program) :: rest =>
    if sect.noBits then join origin bytes rest
    else if UInt64.ofNat program.code.length ≠ sect.size then
      .error (.wrongSectionLength sect.name program.code.length sect.size)
    else
      let padding := sect.base - origin - UInt64.ofNat bytes.length
      join origin (bytes ++ List.replicate padding.toNat 0 ++ program.code) rest

/-- Place and emit an object as a flat image. -/
def write (image : FlatImage) (object : Object) :
    Except Dangling (Object × Except Error (List UInt8)) := do
  match object.place image.origin image.alignment with
  | (placed, .error error) => return (placed, .error error)
  | (placed, .ok order) =>
    match ← placed.emitAll (Output.standard placed.table false) order with
    | (emitted, .error error) => return (emitted, .error error)
    | (emitted, .ok programs) =>
      let sections := order.filterMap fun id => emitted.sections[id]?
      return (emitted, join image.origin [] (sections.zip programs))

end FlatImage

end Assembler
