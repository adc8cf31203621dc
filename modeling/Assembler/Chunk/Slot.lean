import Assembler.Error

/-!
# The place of a chunk

A slot is what a layout finds out about a chunk: how long one copy is, how many copies there are and
where the first one starts. Padding has a rule instead of a length of its own: its `Setter` gives
the length from the offset that it lands on.
-/

namespace Assembler

/-- The rule that gives padding its length. -/
inductive Setter where
  /-- Up to the next multiple of a boundary, unless that is more than a limit; a limit of zero is
  none. -/
  | align (boundary maxSkip : UInt64)
  /-- Up to an offset of the section. -/
  | origin (start : UInt64)
deriving DecidableEq

/-- The length of the padding at an offset. -/
def Setter.pad : Setter → UInt64 → Except Error UInt64
  | .align boundary maxSkip, offset =>
    let length := (boundary - offset % boundary) % boundary
    if maxSkip ≠ 0 && maxSkip < length then .ok 0 else .ok length
  | .origin start, offset =>
    if start < offset then .error (.originOverlap offset start) else .ok (start - offset)

/-- The offset of a chunk that no layout has placed. -/
def unknownOffset : UInt64 := -1

/-- What a layout finds out about a chunk. -/
structure Slot where
  /-- The length of one copy. -/
  length : UInt64 := 0
  /-- The number of copies. -/
  copies : Int64 := 1
  /-- The offset of the first copy in the section. -/
  offset : UInt64 := unknownOffset
  /-- Whether a branch is in its near form. -/
  near : Bool := false
  /-- The rule for the length, of padding only. -/
  setter : Option Setter := none
  /-- Why the chunk could not be laid out. -/
  error : Option Error := none
deriving DecidableEq

namespace Slot

/-- The length of all copies together. -/
def total (slot : Slot) : UInt64 := slot.length * slot.copies.toUInt64

/-- The offset behind the last copy. -/
def next (slot : Slot) : UInt64 := slot.offset + slot.total

/-- Put a slot at an offset. Padding gets its length there; padding that cannot reach back keeps no
length and fails. -/
def placeAt (slot : Slot) (offset : UInt64) : Slot :=
  match slot.error, slot.setter with
  | none, some setter =>
    match setter.pad offset with
    | .ok length => { slot with offset, length }
    | .error error => { slot with offset, length := 0, error := some error }
  | _, _ => { slot with offset }

end Slot

end Assembler
