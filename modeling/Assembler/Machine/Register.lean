import Assembler.Error

/-!
# General registers of the x86-64

A register is a number with the width it is used in. Numbers from sixteen on and widths other than
four and eight bytes can be written down, but have no encoding.
-/

namespace Assembler.Machine

/-- A general register in a width, given in bytes. -/
structure Register where
  id : UInt8 := 0
  width : UInt8 := 0
deriving DecidableEq

namespace Register

/-- The names of the registers in eight bytes, by number. -/
def names : List String :=
  ["rax", "rcx", "rdx", "rbx", "rsp", "rbp", "rsi", "rdi",
    "r8", "r9", "r10", "r11", "r12", "r13", "r14", "r15"]

/-- A register in eight bytes. -/
def wide (id : UInt8) : Register := ⟨id, 8⟩

/-- A register in four bytes. -/
def half (id : UInt8) : Register := ⟨id, 4⟩

/-- The name of a register. -/
def text (register : Register) : String :=
  match names[register.id.toNat]? with
  | none => "reg" ++ toString register.id.toNat
  | some name =>
    if register.width ≠ 4 then name
    else if 8 ≤ register.id then name ++ "d"
    else "e" ++ String.ofList (name.toList.drop 1)

/-- Every register, each in eight bytes and then in four. -/
def all : List Register :=
  (List.range names.length).flatMap fun id => [wide (UInt8.ofNat id), half (UInt8.ofNat id)]

/-- The register with a name. -/
def ofName (name : String) : Except Error Register :=
  match all.find? fun register => register.text == name with
  | some register => .ok register
  | none => .error (.unknownRegister name)

/-- The three bits that an instruction holds of the number, and whether the number has a fourth. -/
def encoding (register : Register) : Except Error (UInt8 × Bool) :=
  if 15 < register.id then .error (.registerId register.id)
  else if register.width ≠ 4 && register.width ≠ 8 then
    .error (.registerWidth (register.width * 8))
  else .ok (register.id &&& 7, 8 ≤ register.id)

end Register

end Assembler.Machine
