import Assembler.Emission

/-!
# Placement

Placing an object gives each section the address of its first byte. Sections that hold bytes of a
file come first, so that those bytes are together; the others follow.
-/

namespace Assembler

/-- The least multiple of a power of two that is not below a value. -/
def alignUp (value alignment : UInt64) : UInt64 :=
  (value + alignment - 1) &&& ~~~(alignment - 1)

namespace Object

/-- The numbers of the sections in the order of their addresses. -/
def placementOrder (object : Object) : List Nat :=
  let numbered := object.sections.zipIdx
  (numbered.filter fun (sect, _) => !sect.noBits).map Prod.snd ++
    (numbered.filter fun (sect, _) => sect.noBits).map Prod.snd

/-- Give sections their addresses in order, from an address on. The sections before the first that
does not fit keep the addresses they got. -/
def placeFrom (alignment : UInt64) : UInt64 → List Nat → Object → Object × Option Error
  | _, [], object => (object, none)
  | address, id :: rest, object =>
    match object.sections[id]? with
    | none => placeFrom alignment address rest object
    | some sect =>
      let base := alignUp address alignment
      if base < address || 0xffffffffffffffff - sect.size < base then
        (object, some (.addressSpace sect.name))
      else
        placeFrom alignment (base + sect.size) rest
          (object.modifySection id fun sect => { sect with base })

/-- Give every section its address, each rounded up to the alignment. The numbers of the sections
come back in the order of their addresses. -/
def place (object : Object) (start alignment : UInt64) : Object × Except Error (List Nat) :=
  if !isPowerOfTwo alignment then (object, .error (.badSectionAlignment alignment))
  else
    match object.sections.find? fun sect => !sect.laidOut with
    | some sect => (object, .error (.notLaidOut sect.name))
    | none =>
      match placeFrom alignment start object.placementOrder object with
      | (placed, none) => (placed, .ok object.placementOrder)
      | (placed, some error) => (placed, .error error)

/-- Emit sections in the order given, collecting the errors of those that fail. -/
def emitEach (output : Output) : List Nat → Object →
    Except Dangling (Object × List Request × List Program × List Error)
  | [], object => .ok (object, [], [], [])
  | id :: rest, object => do
    let emitted ← object.emitSection output id
    let (last, requests, programs, errors) ← emitEach output rest emitted.object
    match emitted.program with
    | .ok program => return (last, emitted.requests ++ requests, program :: programs, errors)
    | .error error =>
      let name := ((object.sections[id]?).map Section.name).getD ""
      return (last, emitted.requests ++ requests, programs, .inSection name error :: errors)

/-- Emit sections in the order given. Every one is tried, so that all reports are made. -/
def emitAll (object : Object) (output : Output) (order : List Nat) :
    Except Dangling (Object × Except Error (List Program)) := do
  let (last, _, programs, errors) ← emitEach output order object
  match Error.all errors with
  | some error => return (last, .error error)
  | none => return (last, .ok programs)

end Object

end Assembler
