/-!
# Kinds of chunks

A section is a list of chunks. `Kind` says what a chunk holds and `Role` how its bytes are to be
treated by those who do not look inside.
-/

namespace Assembler

/-- What a chunk holds. -/
inductive Kind where
  | data
  | leb128
  | reserve
  | binary
  | align
  | org
  | instruction
deriving DecidableEq

namespace Kind

/-- The names of the kinds, by code. -/
def names : List String := ["data", "leb128", "reserve", "incbin", "align", "org", "insn"]

/-- The name of a kind. -/
def text : Kind → String
  | .data => "data"
  | .leb128 => "leb128"
  | .reserve => "reserve"
  | .binary => "incbin"
  | .align => "align"
  | .org => "org"
  | .instruction => "insn"

end Kind

/-- How a chunk's bytes are treated by placement and output. -/
inductive Role where
  | none
  | reserve
  | offsetSetter
  | instruction
deriving DecidableEq

namespace Role

/-- The names of the roles, by code. -/
def names : List String := ["none", "reserve", "offset-setter", "instruction"]

/-- The name of a role. -/
def text : Role → String
  | .none => "none"
  | .reserve => "reserve"
  | .offsetSetter => "offset-setter"
  | .instruction => "instruction"

end Role

/-- The role of every kind of chunk. -/
def Kind.role : Kind → Role
  | .data | .leb128 | .binary => .none
  | .reserve => .reserve
  | .align | .org => .offsetSetter
  | .instruction => .instruction

end Assembler
